import Mathlib.Order.Monotone.Basic
import ClassWeave.Proofs.Binding
import ClassWeave.Proofs.Body.Reaching
import ClassWeave.Proofs.Widening.Branches

/-!
# Control flow of a widened body

Widening keeps what a body does. Every instruction that is no far branch stays, the labels of the
body stay in front of the instructions that they were in front of, and from every branch control
comes to the same instruction as before, with the same operands left, whatever the operands are.
This holds as long as the labels that are taken have numbers of their own: behind the last number
they start anew, and a branch that was turned around may skip to a place of the old body.
-/

set_option autoImplicit false

namespace ClassWeave

namespace Code

def branch? (c : Code) (now : Nat × List Operand) : Option (Nat × List Operand) :=
  match c.executed[now.1]? with
  | some (.jump op target) => (op.decide? now.2).bind fun (taken, rest) =>
    if taken then (c.positions.find? target).map fun place => (place, rest)
    else some (now.1 + 1, rest)
  | _ => none

/-- Branches lead from one place to another, by way of none that counts. -/
inductive Arrives (c : Code) (counts : Nat → Prop) :
    Nat × List Operand → Nat × List Operand → Prop
  | reached {s t : Nat × List Operand} (step : c.branch? s = some t) (here : counts t.1) :
      Arrives c counts s t
  | through {s t u : Nat × List Operand} (step : c.branch? s = some t) (added : ¬ counts t.1)
      (rest : Arrives c counts t u) : Arrives c counts s u

variable {c : Code} {counts : Nat → Prop} {s t u : Nat × List Operand}

theorem not_arrives (stuck : c.branch? s = none) : ¬ c.Arrives counts s u := by
  intro arrives
  cases arrives with
  | reached step => cases stuck.symm.trans step
  | through step => cases stuck.symm.trans step

theorem arrives_iff_eq (step : c.branch? s = some t) (here : counts t.1) :
    c.Arrives counts s u ↔ u = t := by
  constructor
  · intro arrives
    cases arrives with
    | reached step' => exact Option.some.inj (step'.symm.trans step)
    | through step' added =>
      obtain rfl := Option.some.inj (step.symm.trans step')
      exact absurd here added
  · rintro rfl
    exact .reached step here

theorem arrives_iff_through (step : c.branch? s = some t) (added : ¬ counts t.1) :
    c.Arrives counts s u ↔ c.Arrives counts t u := by
  constructor
  · intro arrives
    cases arrives with
    | reached step' here =>
      obtain rfl := Option.some.inj (step.symm.trans step')
      exact absurd here added
    | through step' _ rest =>
      obtain rfl := Option.some.inj (step.symm.trans step')
      exact rest
  · exact .through step added

end Code

namespace Widening

/-- What may take the place of an instruction. -/
inductive Replaced : Insn × Option Int → List Insn → Prop
  | kept (insn : Insn) : Replaced (insn, none) [insn]
  | goto (target : Label) (distance : Int) :
      Replaced (.jump Opcode.goto target, some distance) [.jump Opcode.gotoW target]
  | jsr (target : Label) (distance : Int) :
      Replaced (.jump Opcode.jsr target, some distance) [.jump Opcode.jsrW target]
  | turned {op inverse : Opcode} (target skip : Label) (distance : Int)
      (opposite : op.opposite? = some inverse) :
      Replaced (.jump op target, some distance)
        [.jump inverse skip, .jump Opcode.gotoW target, .label skip]

def moved (steps : List (Insn × Option Int)) (n : Nat) : Nat :=
  n + ((steps.filter fun s => s.1.isExecuted).take n).countP splits

def Reported (s : Insn × Option Int) : Prop := s.2.isSome = true → s.1.isBranch = true

variable {s : Insn × Option Int} {steps front back : List (Insn × Option Int)} {next : UInt32}
  {m n : Nat} {l : Label}

theorem replaced_part (reported : Reported s) (turned : turns s = true) (skip : Label) :
    Replaced s (part skip s) := by
  obtain ⟨insn, far⟩ := s
  cases far with
  | none => cases insn <;> exact .kept _
  | some distance =>
    cases insn with
    | jump op target =>
      rw [part]
      by_cases isGoto : op = Opcode.goto
      · subst isGoto
        exact .goto target distance
      · by_cases isJsr : op = Opcode.jsr
        · subst isJsr
          exact .jsr target distance
        · have split := splits_iff.2 ⟨op, target, distance, rfl, isGoto, isJsr⟩
          rw [turns, split] at turned
          obtain ⟨inverse, found⟩ := Option.isSome_iff_exists.1 turned
          rw [if_neg isGoto, if_neg isJsr, found]
          exact .turned target skip distance found
    | _ => cases reported rfl

theorem replaced_parts (reported : ∀ s ∈ steps, Reported s) (turned : steps.all turns = true) :
    List.Forall₂ Replaced steps (parts next steps) := by
  induction steps generalizing next with
  | nil => exact .nil
  | cons s rest ih =>
    rw [List.forall_mem_cons] at reported
    rw [List.all_cons, Bool.and_eq_true] at turned
    exact .cons (replaced_part reported.1 turned.1 _) (ih reported.2 turned.2)

theorem moved_front (whole : steps = front ++ back) (next : UInt32) :
    moved steps (executedIn (front.map Prod.fst)) = executedIn (insnsFrom next front) := by
  have runs : executedIn (front.map Prod.fst) =
      (front.filter fun s => s.1.isExecuted).length := by
    rw [executedIn, List.countP_map, List.countP_eq_length_filter]
    rfl
  have split : (front.filter fun s => s.1.isExecuted).countP splits = front.countP splits := by
    rw [List.countP_filter]
    refine List.countP_congr fun s _ => ?_
    rw [Bool.and_eq_true]
    exact ⟨And.left, fun split => ⟨split, isExecuted_of_splits split⟩⟩
  rw [moved, whole, List.filter_append, List.take_left' runs.symm, split, executedIn_insnsFrom]

theorem moved_behind (whole : steps = front ++ s :: back) (runs : s.1.isExecuted = true) :
    moved steps (executedIn (front.map Prod.fst) + 1) =
      moved steps (executedIn (front.map Prod.fst)) + 1 + [s].countP splits := by
  have listed : executedIn ((front ++ [s]).map Prod.fst) = executedIn (front.map Prod.fst) + 1 := by
    rw [List.map_append, executedIn_append, List.map_singleton, executedIn_cons, runs]
    rfl
  rw [← listed, moved_front (whole.trans (List.append_cons ..)) 0, moved_front whole 0,
    executedIn_insnsFrom, executedIn_insnsFrom, listed, List.countP_append]
  omega

theorem strictMono_moved (steps : List (Insn × Option Int)) : StrictMono (moved steps) := by
  intro m n before
  have more : ((steps.filter fun s => s.1.isExecuted).take m).countP splits ≤
      ((steps.filter fun s => s.1.isExecuted).take n).countP splits :=
    (List.take_sublist_take_left (Nat.le_of_lt before)).countP_le
  rw [moved, moved]
  omega

theorem bound?_eq {insn : Insn} : insn.bound? = some l ↔ insn = .label l := by
  cases insn <;> simp [Insn.bound?]

theorem stands_part {skip : Label} (other : splits s = true → l ≠ skip) :
    Stands l m n (part skip s) ↔ s.1 = .label l ∧ m = n := by
  cases split : splits s with
  | true =>
    obtain ⟨op, target, d, rfl, noGoto, noJsr⟩ := splits_iff.1 split
    rw [part_of_splits noGoto noJsr]
    have fresh := other split
    constructor
    · intro stands
      have mem := stands.mem
      simp [fresh] at mem
    · rintro ⟨same, _⟩
      cases same
  | false =>
    rw [part_of_keeps split, stands_cons, ← bound?_eq, bound?_wide, bound?_eq]
    exact or_iff_left nofun

theorem stands_insnsFrom (other : l ∉ freshLabels next (steps.countP splits)) :
    Stands l m n (insnsFrom next steps) ↔ ∃ front far back,
      steps = front ++ (.label l, far) :: back ∧ m = n + executedIn (insnsFrom next front) := by
  induction steps generalizing next n with
  | nil =>
    constructor
    · intro stands
      cases stands
    · rintro ⟨_, _, _, whole, _⟩
      simp at whole
  | cons s rest ih =>
    have apart : (splits s = true → l ≠ ⟨next⟩) ∧
        l ∉ freshLabels (after next s) (rest.countP splits) := by
      rw [List.countP_cons] at other
      unfold after
      split
      · rename_i split
        rw [if_pos split, freshLabels_succ] at other
        exact ⟨fun _ same => other (same ▸ List.mem_cons_self), fun mem =>
          other (List.mem_cons_of_mem _ mem)⟩
      · rename_i keeps
        rw [if_neg keeps] at other
        exact ⟨fun split => absurd split keeps, other⟩
    rw [insnsFrom_cons, stands_append, stands_part apart.1, ih apart.2]
    constructor
    · rintro (⟨label, rfl⟩ | ⟨front, far, back, rfl, rfl⟩)
      · exact ⟨[], s.2, rest, by rw [← label]; rfl, rfl⟩
      · refine ⟨s :: front, far, back, rfl, ?_⟩
        rw [insnsFrom_cons, executedIn_append, Nat.add_assoc]
    · rintro ⟨front, far, back, whole, rfl⟩
      cases front with
      | nil =>
        obtain ⟨rfl, rfl⟩ := List.cons.inj whole
        exact .inl ⟨rfl, rfl⟩
      | cons _ front =>
        obtain ⟨rfl, rfl⟩ := List.cons.inj whole
        refine .inr ⟨front, far, back, rfl, ?_⟩
        rw [insnsFrom_cons, executedIn_append, Nat.add_assoc]

theorem stands_steps : Stands l n 0 (steps.map Prod.fst) ↔ ∃ front far back,
    steps = front ++ (.label l, far) :: back ∧ n = executedIn (front.map Prod.fst) := by
  rw [stands_iff]
  constructor
  · rintro ⟨_, _, whole, rfl⟩
    obtain ⟨front, _, rfl, rfl, behind⟩ := List.map_eq_append_iff.1 whole
    obtain ⟨⟨_, far⟩, back, rfl, rfl, _⟩ := List.map_eq_cons_iff.1 behind
    exact ⟨front, far, back, rfl, Nat.zero_add _⟩
  · rintro ⟨front, far, back, rfl, rfl⟩
    exact ⟨_, _, List.map_append, (Nat.zero_add _).symm⟩

theorem stands_moved (other : l ∉ freshLabels next (steps.countP splits)) :
    Stands l m 0 (insnsFrom next steps) ↔
      ∃ n, m = moved steps n ∧ Stands l n 0 (steps.map Prod.fst) := by
  rw [stands_insnsFrom other]
  simp only [stands_steps]
  constructor
  · rintro ⟨front, far, back, whole, rfl⟩
    exact ⟨_, by rw [moved_front whole next, Nat.zero_add], front, far, back, whole, rfl⟩
  · rintro ⟨_, rfl, front, far, back, whole, rfl⟩
    exact ⟨front, far, back, whole, by rw [moved_front whole next, Nat.zero_add]⟩

theorem steps_at (found : (steps.filter fun s => s.1.isExecuted)[n]? = some s) :
    ∃ front back, steps = front ++ s :: back ∧ n = executedIn (front.map Prod.fst) := by
  induction steps generalizing n with
  | nil => simp at found
  | cons first rest ih =>
    have behind (front : List (Insn × Option Int)) :
        executedIn ((first :: front).map Prod.fst) =
          executedIn (front.map Prod.fst) + if first.1.isExecuted then 1 else 0 :=
      executedIn_cons ..
    rw [List.filter_cons] at found
    cases runs : first.1.isExecuted with
    | false =>
      rw [runs] at found
      obtain ⟨front, back, rfl, rfl⟩ := ih found
      exact ⟨first :: front, back, rfl, by rw [behind, runs]; rfl⟩
    | true =>
      rw [runs, if_pos rfl] at found
      cases n with
      | zero =>
        obtain rfl := Option.some.inj found
        exact ⟨[], rest, rfl, rfl⟩
      | succ n =>
        obtain ⟨front, back, rfl, rfl⟩ := ih found
        exact ⟨first :: front, back, rfl, by rw [behind, runs]; rfl⟩

theorem exists_step {insn : Insn}
    (found : ((steps.map Prod.fst).filter Insn.isExecuted)[n]? = some insn) :
    ∃ front far back, steps = front ++ (insn, far) :: back ∧
      n = executedIn (front.map Prod.fst) := by
  rw [List.filter_map, List.getElem?_map, Option.map_eq_some_iff] at found
  obtain ⟨⟨insn, far⟩, found, rfl⟩ := found
  obtain ⟨front, back, split, here⟩ := steps_at found
  exact ⟨front, far, back, split, here⟩

theorem unbound_behind {first : UInt32} {j : Nat}
    (room : first.toNat + (j + 1 + back.countP splits) ≤ 4294967296)
    (below : ∀ l, Insn.label l ∈ back.map Prod.fst → l.number < first) :
    Insn.label ⟨first + UInt32.ofNat j⟩ ∉ insnsFrom (first + UInt32.ofNat (j + 1)) back := by
  intro again
  rw [← mem_boundLabels, (boundLabels_insnsFrom _ back).mem_iff, List.mem_append] at again
  rcases again with old | new
  · have low := UInt32.lt_iff_toNat_lt.1 (below _ (mem_boundLabels.1 old))
    rw [toNat_fresh (by omega)] at low
    omega
  · have taken : (⟨first + UInt32.ofNat j⟩ : Label) ∈ freshLabels first (j + 1) :=
      List.mem_map.2 ⟨j, List.mem_range.2 (Nat.lt_succ_self j), rfl⟩
    have distinct : (freshLabels first (j + 1 + back.countP splits)).Nodup :=
      nodup_freshLabels (by omega)
    rw [freshLabels_add] at distinct
    exact List.disjoint_of_nodup_append distinct taken new

section

variable {c c' : Code} (whole : c.insns = steps.map Prod.fst)
  (widened : c'.insns = insnsFrom c.nextLabel steps)

include whole widened

theorem find?_moved (other : l ∉ freshLabels c.nextLabel (steps.countP splits)) :
    c'.positions.find? l = (c.positions.find? l).map (moved steps) := by
  have unbound (next : UInt32) (steps : List (Insn × Option Int))
      (other : l ∉ freshLabels next (steps.countP splits))
      (absent : Insn.label l ∉ steps.map Prod.fst) : Insn.label l ∉ insnsFrom next steps := by
    rw [← mem_boundLabels, (boundLabels_insnsFrom next steps).mem_iff, List.mem_append,
      mem_boundLabels]
    exact not_or.2 ⟨absent, other⟩
  by_cases stands : Insn.label l ∈ c.insns
  · obtain ⟨_, _, split, last⟩ := exists_last stands
    rw [Code.find?_of_last split last]
    rw [whole] at split
    obtain ⟨front, _, rfl, rfl, behind⟩ := List.map_eq_append_iff.1 split
    obtain ⟨⟨_, far⟩, back, rfl, rfl, rfl⟩ := List.map_eq_cons_iff.1 behind
    have keeps : splits (.label l, far) = false := by cases far <;> rfl
    have counted : (front ++ (.label l, far) :: back).countP splits =
        (front ++ [(Insn.label l, far)]).countP splits + back.countP splits := by
      rw [List.append_cons, List.countP_append]
    rw [counted, freshLabels_add, List.mem_append, not_or] at other
    rw [insnsFrom_at, part_of_keeps keeps] at widened
    rw [Code.find?_of_last widened (unbound _ back other.2 last), Option.map_some,
      moved_front rfl c.nextLabel]
  · rw [Code.find?_of_unbound stands, Code.find?_of_unbound]
    · rfl
    · exact widened ▸ unbound _ _ other (whole ▸ stands)

omit whole in
theorem executed_moved {insn : Insn} {far : Option Int}
    (split : steps = front ++ (insn, far) :: back) (runs : insn.isExecuted = true)
    (keeps : splits (insn, far) = false) :
    c'.executed[moved steps (executedIn (front.map Prod.fst))]? = some (wide (insn, far)) := by
  rw [moved_front split c.nextLabel]
  rw [split, insnsFrom_at, part_of_keeps keeps] at widened
  exact Code.executed_at widened ((isExecuted_wide _).trans runs)

theorem executed_turned {op inverse : Opcode} {target : Label} {d : Int}
    (split : steps = front ++ (.jump op target, some d) :: back)
    (turned : splits (.jump op target, some d) = true) (opposite : op.opposite? = some inverse)
    (below : ∀ l, c.Binds l → l.number < c.nextLabel)
    (room : c.nextLabel.toNat + steps.countP splits ≤ 4294967296) :
    ∃ skip n, n = moved steps (executedIn (front.map Prod.fst)) ∧
      c'.executed[n]? = some (.jump inverse skip) ∧
      c'.executed[n + 1]? = some (.jump Opcode.gotoW target) ∧
      c'.positions.find? skip = some (n + 2) ∧
      moved steps (executedIn (front.map Prod.fst) + 1) = n + 2 := by
  obtain ⟨_, _, _, same, noGoto, noJsr⟩ := splits_iff.1 turned
  cases same
  have first : (front ++ [(Insn.jump op target, some d)]).countP splits =
      front.countP splits + 1 := by
    rw [List.countP_append, List.countP_singleton, if_pos turned]
  have next : moved steps (executedIn (front.map Prod.fst) + 1) =
      executedIn (insnsFrom c.nextLabel front) + 2 := by
    rw [moved_behind split rfl, moved_front split c.nextLabel, List.countP_singleton, if_pos turned]
  have unbound : Insn.label ⟨c.nextLabel + UInt32.ofNat (front.countP splits)⟩ ∉
      insnsFrom (c.nextLabel + UInt32.ofNat (front.countP splits + 1)) back := by
    refine unbound_behind ?_ fun l mem => below l ?_
    · rw [← first, ← List.countP_append, ← List.append_cons, ← split]
      exact room
    · rw [Code.Binds, whole, split, List.map_append]
      exact List.mem_append_right _ (List.mem_cons_of_mem _ mem)
  rw [moved_front split c.nextLabel]
  rw [split, insnsFrom_at, part_of_splits noGoto noJsr, opposite, Option.getD_some, first]
    at widened
  have second : c'.insns = (insnsFrom c.nextLabel front ++ [.jump inverse _]) ++
      .jump Opcode.gotoW target :: _ := widened.trans (List.append_cons ..)
  have third : c'.insns = ((insnsFrom c.nextLabel front ++ [.jump inverse _]) ++
      [.jump Opcode.gotoW target]) ++ .label _ :: _ := second.trans (List.append_cons ..)
  have placed := Code.find?_of_last third unbound
  have wide := Code.executed_at second rfl
  rw [executedIn_append] at wide placed
  rw [executedIn_append] at placed
  exact ⟨_, _, rfl, Code.executed_at widened rfl, wide, placed, next⟩

omit whole widened in
theorem decide?_wide {op : Opcode} {target : Label} {far : Option Int}
    (keeps : splits (.jump op target, far) = false) :
    ∃ op', wide (.jump op target, far) = .jump op' target ∧ op'.decide? = op.decide? := by
  cases far with
  | none => exact ⟨op, rfl, rfl⟩
  | some d =>
    rw [wide]
    by_cases isGoto : op = Opcode.goto
    · subst isGoto
      exact ⟨_, rfl, rfl⟩
    · have isJsr : op = Opcode.jsr := by simpa [splits, isGoto] using keeps
      subst isJsr
      exact ⟨_, rfl, rfl⟩

omit whole widened in
theorem arrives_of_branch {s t u : Nat × List Operand}
    (step : c'.branch? t = (c.branch? s).map (Prod.map (moved steps) id)) :
    c'.Arrives (fun k => ∃ m, k = moved steps m) t u ↔
      ∃ m, c.branch? s = some (m, u.2) ∧ u.1 = moved steps m := by
  cases old : c.branch? s with
  | none =>
    rw [old] at step
    exact iff_of_false (Code.not_arrives step) nofun
  | some place =>
    rw [old] at step
    rw [Code.arrives_iff_eq step ⟨place.1, rfl⟩]
    constructor
    · rintro rfl
      exact ⟨place.1, rfl, rfl⟩
    · rintro ⟨m, same, here⟩
      obtain rfl := Option.some.inj same
      exact Prod.ext here rfl

theorem branch?_moved {insn : Insn} {far : Option Int}
    (split : steps = front ++ (insn, far) :: back) (runs : insn.isExecuted = true)
    (keeps : splits (insn, far) = false)
    (positions : ∀ l ∈ insn.targets, c'.positions.find? l =
      (c.positions.find? l).map (moved steps)) (stack : List Operand) :
    c'.branch? (moved steps (executedIn (front.map Prod.fst)), stack) =
      (c.branch? (executedIn (front.map Prod.fst), stack)).map (Prod.map (moved steps) id) := by
  have new := executed_moved widened split runs keeps
  have old : c.executed[executedIn (front.map Prod.fst)]? = some insn := by
    rw [split, List.map_append] at whole
    exact Code.executed_at whole runs
  rw [Code.branch?, Code.branch?, new, old]
  cases insn with
  | jump op target =>
    obtain ⟨op', same, decides⟩ := decide?_wide keeps
    have next := moved_behind split runs
    rw [List.countP_singleton, keeps] at next
    rw [same]
    dsimp only
    rw [decides, positions target (List.mem_singleton_self target)]
    cases op.decide? stack with
    | none => rfl
    | some answer =>
      obtain ⟨taken, rest⟩ := answer
      cases taken with
      | true => cases c.positions.find? target <;> rfl
      | false => simp [next]
  | _ => cases far <;> rfl

theorem arrives_turned {op inverse : Opcode} {target : Label} {d : Int}
    (split : steps = front ++ (.jump op target, some d) :: back)
    (turned : splits (.jump op target, some d) = true) (opposite : op.opposite? = some inverse)
    (below : ∀ l, c.Binds l → l.number < c.nextLabel)
    (room : c.nextLabel.toNat + steps.countP splits ≤ 4294967296)
    (position : c'.positions.find? target = (c.positions.find? target).map (moved steps))
    (stack : List Operand) (u : Nat × List Operand) :
    c'.Arrives (fun k => ∃ m, k = moved steps m)
        (moved steps (executedIn (front.map Prod.fst)), stack) u ↔
      ∃ m, c.branch? (executedIn (front.map Prod.fst), stack) = some (m, u.2) ∧
        u.1 = moved steps m := by
  obtain ⟨skip, k, here, first, second, place, next⟩ :=
    executed_turned whole widened split turned opposite below room
  have old : c.executed[executedIn (front.map Prod.fst)]? = some (.jump op target) := by
    rw [split, List.map_append] at whole
    exact Code.executed_at whole rfl
  have branched : c.branch? (executedIn (front.map Prod.fst), stack) =
      (op.decide? stack).bind fun (taken, rest) =>
        if taken then (c.positions.find? target).map fun place => (place, rest)
        else some (executedIn (front.map Prod.fst) + 1, rest) := by
    rw [Code.branch?, old]
  have step : c'.branch? (k, stack) = ((op.decide? stack).map fun answer =>
      (!answer.1, answer.2)).bind fun (taken, rest) =>
        if taken then some (k + 2, rest) else some (k + 1, rest) := by
    rw [Code.branch?, first]
    dsimp only
    rw [Opcode.decide?_opposite opposite, place]
    rfl
  rw [← here]
  cases decision : op.decide? stack with
  | none =>
    rw [decision] at branched step
    exact arrives_of_branch (step.trans (by rw [branched]; rfl))
  | some answer =>
    obtain ⟨taken, rest⟩ := answer
    rw [decision] at branched step
    cases taken with
    | false =>
      refine arrives_of_branch (step.trans ?_)
      rw [branched]
      exact congrArg some (Prod.ext next.symm rfl)
    | true =>
      have added : ¬ ∃ m, k + 1 = moved steps m := by
        rintro ⟨m, between⟩
        rcases Nat.lt_or_ge (executedIn (front.map Prod.fst)) m with behind | before
        · have later := (strictMono_moved steps).monotone (Nat.succ_le_of_lt behind)
          rw [Nat.succ_eq_add_one, next] at later
          omega
        · have earlier := (strictMono_moved steps).monotone before
          omega
      have wide : c'.branch? (k + 1, rest) =
          (c'.positions.find? target).map fun place => (place, rest) := by
        rw [Code.branch?, second]
        rfl
      rw [Code.arrives_iff_through step added]
      refine arrives_of_branch ?_
      rw [wide, branched, position]
      cases c.positions.find? target <;> rfl

theorem arrives_moved (turned : steps.all turns = true)
    (below : ∀ l, c.Binds l ∨ l ∈ c.named → l.number < c.nextLabel)
    (room : c.nextLabel.toNat + steps.countP splits ≤ 4294967296) (n : Nat)
    (stack : List Operand) (u : Nat × List Operand) :
    c'.Arrives (fun k => ∃ m, k = moved steps m) (moved steps n, stack) u ↔
      ∃ m, c.branch? (n, stack) = some (m, u.2) ∧ u.1 = moved steps m := by
  cases found : c.executed[n]? with
  | none =>
    have nowhere : c.branch? (n, stack) = none := by rw [Code.branch?, found]
    have behind : executedIn (steps.map Prod.fst) ≤ n := by
      rw [executedIn, ← whole, List.countP_eq_length_filter]
      exact List.getElem?_eq_none_iff.1 found
    have last : c'.executed[moved steps n]? = none := by
      rw [List.getElem?_eq_none_iff, Code.executed, ← List.countP_eq_length_filter, widened]
      rw [← executedIn, ← moved_front (List.append_nil steps).symm c.nextLabel]
      exact (strictMono_moved steps).monotone behind
    refine arrives_of_branch ?_
    rw [nowhere, Code.branch?, last]
    rfl
  | some insn =>
    have mem : insn ∈ c.insns := List.mem_of_mem_filter (List.mem_of_getElem? found)
    have runs : insn.isExecuted = true := (List.mem_filter.1 (List.mem_of_getElem? found)).2
    have positions : ∀ l ∈ insn.targets, c'.positions.find? l =
        (c.positions.find? l).map (moved steps) := by
      intro l target
      have named : l ∈ c.named := by
        simp only [Code.named, Code.mentions, List.mem_append, List.mem_flatMap]
        exact .inl (.inl (.inl (.inl ⟨insn, mem, target⟩)))
      refine find?_moved whole widened fun fresh => ?_
      have low := UInt32.lt_iff_toNat_lt.1 (below l (.inr named))
      have high := (range_freshLabels room fresh).1
      omega
    have old := found
    rw [Code.executed, whole] at found
    obtain ⟨front, far, back, split, rfl⟩ := exists_step found
    by_cases splitted : splits (insn, far) = true
    · obtain ⟨op, target, d, same, noGoto, noJsr⟩ := splits_iff.1 splitted
      obtain ⟨rfl, rfl⟩ := Prod.mk.inj same
      have turn := List.all_eq_true.1 turned _ (split ▸ List.mem_append_right _ List.mem_cons_self)
      rw [turns, splitted] at turn
      obtain ⟨inverse, opposite⟩ := Option.isSome_iff_exists.1 turn
      have position := positions target (List.mem_singleton_self target)
      exact arrives_turned whole widened split splitted opposite
        (fun l bound => below l (.inl bound)) room position stack u
    · exact arrives_of_branch (branch?_moved whole widened split runs
        (Bool.eq_false_iff.2 splitted) positions stack)

end

end Widening

open Widening

/-- What is kept of a body with `steps` when branches are turned around. -/
structure Code.SameControl (c c' : Code) (steps : List (Insn × Option Int)) : Prop where
  labels : ∀ l, l.number < c.nextLabel → ∀ m, Stands l m 0 c'.insns ↔
    ∃ n, m = moved steps n ∧ Stands l n 0 c.insns
  positions : ∀ l, l.number < c.nextLabel →
    c'.positions.find? l = (c.positions.find? l).map (moved steps)
  /-- Every branch leads where it led, with the same operands left; a far one by way of the wide
  branch that was put behind it. -/
  branches : ∀ n stack u, c'.Arrives (fun k => ∃ m, k = moved steps m) (moved steps n, stack) u ↔
    ∃ m, c.branch? (n, stack) = some (m, u.2) ∧ u.1 = moved steps m
  skips : ∀ l ∈ freshLabels c.nextLabel (steps.countP splits),
    (boundLabels c'.insns).count l = 1 ∧ ¬ c.Binds l ∧ l ∉ c.named

/-- Widening replaces far branches in place, keeps everything else, and keeps control flow as long
as the numbers of labels do not run out. -/
theorem control_widen {c c' : Code} {tables tables' : Tables} {l : Layout}
    {far : List (Option Int)} {split : Bool}
    (laid : Layout.ofInsns c.insns tables = (.ok l, tables')) (reported : l.farDistances = .ok far)
    (below : ∀ l, c.Binds l ∨ l ∈ c.named → l.number < c.nextLabel)
    (run : c.widen far = .ok (c', split)) :
    c' = { c with insns := c'.insns, nextLabel := c'.nextLabel } ∧
      (c.insns.zip far).map Prod.fst = c.insns ∧
      (∃ parts, List.Forall₂ Replaced (c.insns.zip far) parts ∧ c'.insns = parts.flatten) ∧
      StrictMono (moved (c.insns.zip far)) ∧
      (∀ n insn, ((c.insns.zip far).filter fun s => s.1.isExecuted)[n]? = some (insn, none) →
        c'.executed[moved (c.insns.zip far) n]? = some insn) ∧
      (c.nextLabel.toNat + (c.insns.zip far).countP splits ≤ 4294967296 →
        c.SameControl c' (c.insns.zip far)) := by
  obtain ⟨turned, same, _⟩ := Code.widen_eq_ok_iff.1 run
  have laid := Layout.answers_ofInsns c.insns _ _ _ laid
  have whole : c.insns = (c.insns.zip far).map Prod.fst :=
    (List.map_fst_zip (Nat.le_of_eq (laid.length_farDistances reported).symm)).symm
  have widened : c'.insns = insnsFrom c.nextLabel (c.insns.zip far) := congrArg Code.insns same
  have branches : ∀ s ∈ c.insns.zip far, Reported s := by
    intro s mem isFar
    obtain ⟨p, _, insn, found⟩ := Layout.exists_placed_of_mem_zip laid reported mem
    obtain ⟨d, distance⟩ := Option.isSome_iff_exists.1 isFar
    rw [distance] at found
    exact insn ▸ Layout.isBranch_of_farDistance found
  refine ⟨same ▸ rfl, whole.symm, ⟨_, replaced_parts branches turned, widened⟩,
    strictMono_moved _, fun n insn found => ?_, fun room => ?_⟩
  · obtain ⟨front, back, split, rfl⟩ := steps_at found
    have runs : insn.isExecuted = true := (List.mem_filter.1 (List.mem_of_getElem? found)).2
    have keeps : splits (insn, none) = false := by cases insn <;> rfl
    rw [executed_moved widened split runs keeps]
    cases insn <;> rfl
  · have apart : ∀ l : Label, l.number < c.nextLabel →
        l ∉ freshLabels c.nextLabel ((c.insns.zip far).countP splits) := by
      intro l old fresh
      have low := UInt32.lt_iff_toNat_lt.1 old
      have high := (range_freshLabels room fresh).1
      omega
    refine ⟨fun l old m => ?_, fun l old => find?_moved whole widened (apart l old),
      arrives_moved whole widened turned below room, fun l fresh => ?_⟩
    · rw [widened, stands_moved (apart l old), ← whole]
    · have unbound : ¬ c.Binds l := fun bound => apart l (below l (.inl bound)) fresh
      refine ⟨?_, unbound, fun named => apart l (below l (.inr named)) fresh⟩
      rw [widened, (boundLabels_insnsFrom _ _).count_eq, List.count_append, ← whole,
        List.count_eq_zero_of_not_mem (mt mem_boundLabels.1 unbound), Nat.zero_add]
      exact List.count_eq_one_of_mem (nodup_freshLabels (by omega)) fresh

def wideSwitch : Insn := .tableSwitch ⟨0⟩ 0 0 (List.replicate 8200 ⟨0⟩)

/-- Two branches over the switch; `first` is a label in front of them. -/
def distantCode (first : Label) : Code :=
  Code.ofInsns [.label first, .jump Opcode.ifeq ⟨0⟩, .jump Opcode.ifle ⟨0⟩, wideSwitch, .label ⟨0⟩,
    .simple Opcode.returnVoid]

def distantLayout (first : Label) : Layout :=
  ⟨[⟨0, .label first, none⟩, ⟨0, .jump Opcode.ifeq ⟨0⟩, none⟩, ⟨3, .jump Opcode.ifle ⟨0⟩, none⟩,
      ⟨6, wideSwitch, none⟩, ⟨32820, .label ⟨0⟩, none⟩, ⟨32820, .simple Opcode.returnVoid, none⟩],
    (Positions.empty.bind first 0).bind ⟨0⟩ 32820, 32821⟩

namespace Layout

theorem place_label (l : Layout) (x : Label) : l.place (.label x) =
    pure ⟨⟨l.length, .label x, none⟩ :: l.placed, l.positions.bind x l.length, l.length⟩ := rfl

theorem place_jump (l : Layout) (op : Opcode) (x : Label) : l.place (.jump op x) = pure
    ⟨⟨l.length, .jump op x, none⟩ :: l.placed, l.positions,
      l.length + if op.isWideJump then 5 else 3⟩ := rfl

theorem place_simple (l : Layout) (op : Opcode) : l.place (.simple op) =
    pure ⟨⟨l.length, .simple op, none⟩ :: l.placed, l.positions, l.length + 1⟩ := rfl

end Layout

theorem place_wideSwitch (l : Layout) : l.place wideSwitch = pure
    ⟨⟨l.length, wideSwitch, none⟩ :: l.placed, l.positions,
      l.length + (1 + operandPadding l.length + 12 + 4 * 8200)⟩ := by
  have size : wideSwitch.size l.length none = 1 + operandPadding l.length + 12 + 4 * 8200 := by
    rw [wideSwitch, Insn.size, List.length_replicate]
  rw [← size]
  rfl

theorem laid_distantCode (first : Label) (tables : Tables) :
    Layout.ofInsns (distantCode first).insns tables = (.ok (distantLayout first), tables) := by
  unfold Layout.ofInsns distantCode Code.ofInsns
  simp only [List.foldlM_cons, List.foldlM_nil, place_wideSwitch, Layout.place_label,
    Layout.place_jump, Layout.place_simple, pure_bind]
  rfl

def distances : List (Option Int) := [none, some 32820, some 32817, none, none, none]

theorem farDistances_distantLayout (first : Label) :
    (distantLayout first).farDistances = .ok distances := by
  have place : (distantLayout first).positions.place ⟨0⟩ = .ok 32820 := by
    rw [Positions.place, distantLayout, Positions.find?_bind, if_pos rfl]
  have branch (op : Opcode) (short : op.isWideJump = false) (offset : Nat) (d : Int)
      (distance : (32820 : Nat) - (offset : Int) = d) (far : fitsInt16 d = false) :
      (distantLayout first).farDistance ⟨offset, .jump op ⟨0⟩, none⟩ = .ok (some d) := by
    unfold Layout.farDistance
    dsimp only
    rw [short, place]
    subst distance
    exact congrArg Except.ok (if_neg (Bool.eq_false_iff.1 far))
  refine mapM_ok_iff.2 ?_
  exact .cons rfl (.cons (branch _ rfl 0 _ rfl rfl) (.cons (branch _ rfl 3 _ rfl rfl)
    (.cons rfl (.cons rfl (.cons rfl .nil)))))

theorem eq_of_mem_wideSwitch {l : Label} (mem : l ∈ wideSwitch.targets) : l = ⟨0⟩ := by
  rcases List.mem_cons.1 mem with same | mem
  · exact same
  · exact List.eq_of_mem_replicate mem

theorem below_distantCode {first l : Label}
    (mem : (distantCode first).Binds l ∨ l ∈ (distantCode first).named) : l = first ∨ l = ⟨0⟩ := by
  have targets : ∀ i ∈ (distantCode first).insns, ∀ l ∈ i.targets, l = ⟨0⟩ := by
    have others : ∀ l ∈ [(⟨0⟩ : Label)], l = ⟨0⟩ := fun l mem => List.mem_singleton.1 mem
    have nowhere : ∀ l ∈ ([] : List Label), l = ⟨0⟩ := fun l mem => by cases mem
    simp only [distantCode, Code.ofInsns, List.forall_mem_cons]
    exact ⟨nowhere, others, others, fun _ => eq_of_mem_wideSwitch, nowhere, nowhere,
      fun i mem => by cases mem⟩
  rcases mem with bound | named
  · have switch : Insn.label l ≠ wideSwitch := by
      rw [wideSwitch]
      exact Insn.noConfusion
    simpa [Code.Binds, distantCode, Code.ofInsns, switch] using bound
  · obtain ⟨i, mem, target⟩ : ∃ i ∈ (distantCode first).insns, l ∈ i.targets := by
      simpa [Code.named, Code.mentions, distantCode, Code.ofInsns, Code.empty] using named
    exact .inr (targets i mem l target)

theorem control_distantCode : ∃ c',
    (distantCode ⟨1⟩).widen distances = .ok (c', true) ∧
      (distantCode ⟨1⟩).SameControl c' ((distantCode ⟨1⟩).insns.zip distances) := by
  have run : (distantCode ⟨1⟩).widen distances = .ok (_, true) :=
    Code.widen_eq_ok_iff.2 ⟨by decide, rfl, by decide⟩
  refine ⟨_, run, (control_widen (laid_distantCode ⟨1⟩ default) (farDistances_distantLayout ⟨1⟩)
    (fun l mem => ?_) run).2.2.2.2.2 (by decide)⟩
  rcases below_distantCode mem with rfl | rfl <;> decide

/-- Behind the last number the second branch takes label 0, which the body has already. -/
theorem control_lost_distantCode :
    ¬ ∀ (c c' : Code) (tables tables' : Tables) (l : Layout) (far : List (Option Int))
      (split : Bool), Layout.ofInsns c.insns tables = (.ok l, tables') →
      l.farDistances = .ok far → (∀ l, c.Binds l ∨ l ∈ c.named → l.number < c.nextLabel) →
      c.widen far = .ok (c', split) → c.SameControl c' (c.insns.zip far) := by
  intro always
  have run : (distantCode ⟨4294967294⟩).widen distances = .ok (_, true) :=
    Code.widen_eq_ok_iff.2 ⟨by decide, rfl, by decide⟩
  have same := always _ _ default _ _ _ _ (laid_distantCode ⟨4294967294⟩ default)
    (farDistances_distantLayout ⟨4294967294⟩) (fun l mem => by
      rcases below_distantCode mem with rfl | rfl <;> decide) run
  exact (same.skips ⟨0⟩ (by decide)).2.1 (by simp [Code.Binds, distantCode, Code.ofInsns])

end ClassWeave
