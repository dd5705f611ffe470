import Mathlib.Data.List.Basic
import Mathlib.Tactic.Common
import ClassWeave.Layout.Widen
import ClassWeave.Proofs.Places

/-!
# What widening makes of a body

Widening puts something in the place of each far branch and leaves the rest of the list alone. A
branch that is turned around takes the next label, so what stands in a place depends on how many
branches in front of it were turned around, and on nothing else.
-/

set_option autoImplicit false

namespace ClassWeave

namespace Widening

/-- A far branch that has no wide form, so that a label is taken for it. -/
def splits : Insn × Option Int → Bool
  | (.jump op _, some _) => op != Opcode.goto && op != Opcode.jsr
  | _ => false

def turns (s : Insn × Option Int) : Bool :=
  !splits s || match s.1 with
    | .jump op _ => op.opposite?.isSome
    | _ => true

def part (skip : Label) : Insn × Option Int → List Insn
  | (.jump op target, some _) =>
    if op = Opcode.goto then [.jump Opcode.gotoW target]
    else if op = Opcode.jsr then [.jump Opcode.jsrW target]
    else [.jump (op.opposite?.getD op) skip, .jump Opcode.gotoW target, .label skip]
  | (insn, _) => [insn]

def after (next : UInt32) (s : Insn × Option Int) : UInt32 := if splits s then next + 1 else next

def parts (next : UInt32) : List (Insn × Option Int) → List (List Insn)
  | [] => []
  | s :: rest => part ⟨next⟩ s :: parts (after next s) rest

def insnsFrom (next : UInt32) (steps : List (Insn × Option Int)) : List Insn :=
  (parts next steps).flatten

variable {w w' : Widening} {s : Insn × Option Int} {steps : List (Insn × Option Int)}
  {next : UInt32}

def done (w : Widening) (s : Insn × Option Int) : Widening :=
  ⟨(part ⟨w.nextLabel⟩ s).reverse ++ w.insns, after w.nextLabel s, w.split || splits s⟩

theorem splits_iff : splits s = true ↔
    ∃ op target d, s = (.jump op target, some d) ∧ op ≠ Opcode.goto ∧ op ≠ Opcode.jsr := by
  constructor
  · intro split
    unfold splits at split
    split at split
    · rename_i op target d
      exact ⟨op, target, d, rfl, by simpa using split⟩
    · cases split
  · rintro ⟨op, target, d, rfl, noGoto, noJsr⟩
    simp [splits, noGoto, noJsr]

theorem done_of_single {insn : Insn} (single : part ⟨w.nextLabel⟩ s = [insn])
    (keeps : splits s = false) : w.done s = { w with insns := insn :: w.insns } := by
  rw [done, single, after, keeps, Bool.or_false]
  rfl

theorem add_of_turns (h : turns s = true) : w.add s.1 s.2 = .ok (w.done s) := by
  obtain ⟨insn, far⟩ := s
  cases far with
  | none => cases insn <;> exact congrArg _ (done_of_single rfl rfl).symm
  | some distance =>
    cases insn with
    | jump op target =>
      by_cases isGoto : op = Opcode.goto
      · subst isGoto
        exact congrArg _ (done_of_single rfl rfl).symm
      · by_cases isJsr : op = Opcode.jsr
        · subst isJsr
          exact congrArg _ (done_of_single rfl rfl).symm
        · have split : splits (.jump op target, some distance) = true :=
            splits_iff.2 ⟨op, target, distance, rfl, isGoto, isJsr⟩
          rw [turns, split] at h
          obtain ⟨inverse, found⟩ := Option.isSome_iff_exists.1 h
          unfold add
          dsimp only
          rw [if_neg isGoto, if_neg isJsr, done, part, after, if_neg isGoto, if_neg isJsr,
            if_pos split, split, found, Bool.or_true]
          rfl
    | _ => exact congrArg _ (done_of_single rfl rfl).symm

theorem turns_of_add (run : w.add s.1 s.2 = .ok w') : turns s = true := by
  by_cases split : splits s = true
  · obtain ⟨op, target, d, rfl, noGoto, noJsr⟩ := splits_iff.1 split
    rw [turns, split]
    by_contra stuck
    have none : op.opposite? = none := by simpa using stuck
    unfold add at run
    dsimp only at run
    rw [if_neg noGoto, if_neg noJsr, none] at run
    cases run
  · simp [turns, split]

theorem foldlM_eq_ok_iff :
    steps.foldlM (fun (w : Widening) s => w.add s.1 s.2) w = .ok w' ↔
      steps.all turns = true ∧ w' = steps.foldl done w := by
  induction steps generalizing w with
  | nil => simp [eq_comm, pure, Except.pure]
  | cons s rest ih =>
    rw [List.foldlM_cons, bind_ok_iff, List.all_cons, Bool.and_eq_true, List.foldl_cons]
    constructor
    · rintro ⟨next, first, run⟩
      have turns := turns_of_add first
      obtain rfl := Except.ok.inj ((add_of_turns turns).symm.trans first)
      obtain ⟨all, same⟩ := ih.1 run
      exact ⟨⟨turns, all⟩, same⟩
    · rintro ⟨⟨turns, all⟩, same⟩
      exact ⟨_, add_of_turns turns, ih.2 ⟨all, same⟩⟩

theorem foldl_done : steps.foldl done w = ⟨(insnsFrom w.nextLabel steps).reverse ++ w.insns,
    w.nextLabel + UInt32.ofNat (steps.countP splits), w.split || steps.any splits⟩ := by
  induction steps generalizing w with
  | nil => simp [insnsFrom, parts]
  | cons s rest ih =>
    have next : after w.nextLabel s + UInt32.ofNat (rest.countP splits) =
        w.nextLabel + UInt32.ofNat ((s :: rest).countP splits) := by
      rw [List.countP_cons, after]
      split
      · rw [UInt32.add_assoc, Nat.add_comm, UInt32.ofNat_add]
        rfl
      · rfl
    rw [List.foldl_cons, ih, done, next, List.any_cons, Bool.or_assoc]
    simp [insnsFrom, parts]

/-! The widened list -/

theorem insnsFrom_cons (next : UInt32) (s : Insn × Option Int) (rest : List (Insn × Option Int)) :
    insnsFrom next (s :: rest) = part ⟨next⟩ s ++ insnsFrom (after next s) rest := rfl

theorem after_eq (next : UInt32) (s : Insn × Option Int) :
    after next s = next + UInt32.ofNat ([s].countP splits) := by
  rw [after, List.countP_singleton]
  split
  · rfl
  · exact (UInt32.add_zero next).symm

theorem mem_insnsFrom {insn : Insn} (mem : insn ∈ insnsFrom next steps) :
    ∃ s ∈ steps, ∃ skip, insn ∈ part skip s ∧ part skip s ⊆ insnsFrom next steps := by
  induction steps generalizing next with
  | nil => simp [insnsFrom, parts] at mem
  | cons s rest ih =>
    rw [insnsFrom_cons] at mem ⊢
    rcases List.mem_append.1 mem with here | later
    · exact ⟨s, by simp, ⟨next⟩, here, by simp⟩
    · obtain ⟨s', mem', skip, inside, sub⟩ := ih later
      exact ⟨s', by simp [mem'], skip, inside, fun i hi => by simp [sub hi]⟩

theorem insnsFrom_append (next : UInt32) (front back : List (Insn × Option Int)) :
    insnsFrom next (front ++ back) =
      insnsFrom next front ++ insnsFrom (next + UInt32.ofNat (front.countP splits)) back := by
  induction front generalizing next with
  | nil => exact congrArg (insnsFrom · back) (UInt32.add_zero next).symm
  | cons s rest ih =>
    have counted : (s :: rest).countP splits = [s].countP splits + rest.countP splits :=
      by rw [← List.countP_append, List.singleton_append]
    rw [List.cons_append, insnsFrom_cons, insnsFrom_cons, ih, List.append_assoc, after_eq, counted,
      UInt32.ofNat_add, UInt32.add_assoc]

theorem insnsFrom_at (next : UInt32) (front back : List (Insn × Option Int))
    (s : Insn × Option Int) : insnsFrom next (front ++ s :: back) =
      insnsFrom next front ++ (part ⟨next + UInt32.ofNat (front.countP splits)⟩ s ++
        insnsFrom (next + UInt32.ofNat ((front ++ [s]).countP splits)) back) := by
  rw [insnsFrom_append, insnsFrom_cons, after_eq, List.countP_append, UInt32.ofNat_add,
    UInt32.add_assoc]

theorem part_of_splits {op : Opcode} {target : Label} {d : Int} (noGoto : op ≠ Opcode.goto)
    (noJsr : op ≠ Opcode.jsr) (skip : Label) : part skip (.jump op target, some d) =
      [.jump (op.opposite?.getD op) skip, .jump Opcode.gotoW target, .label skip] := by
  rw [part, if_neg noGoto, if_neg noJsr]

def wide : Insn × Option Int → Insn
  | (.jump op target, some _) =>
    .jump (if op = Opcode.goto then Opcode.gotoW else Opcode.jsrW) target
  | (insn, _) => insn

theorem part_of_keeps (keeps : splits s = false) (skip : Label) : part skip s = [wide s] := by
  obtain ⟨insn, far⟩ := s
  cases far with
  | none => cases insn <;> rfl
  | some d =>
    cases insn with
    | jump op target =>
      rw [part, wide]
      by_cases isGoto : op = Opcode.goto
      · rw [if_pos isGoto, if_pos isGoto]
      · have isJsr : op = Opcode.jsr := by simpa [splits, isGoto] using keeps
        rw [if_neg isGoto, if_neg isGoto, if_pos isJsr]
    | _ => rfl

theorem targets_wide (s : Insn × Option Int) : (wide s).targets = s.1.targets := by
  unfold wide
  split <;> rfl

theorem isExecuted_wide (s : Insn × Option Int) : (wide s).isExecuted = s.1.isExecuted := by
  unfold wide
  split <;> rfl

theorem isExecuted_of_splits (split : splits s = true) : s.1.isExecuted = true := by
  obtain ⟨op, target, d, rfl, _⟩ := splits_iff.1 split
  rfl

theorem countP_splits_le_executedIn (steps : List (Insn × Option Int)) :
    steps.countP splits ≤ executedIn (steps.map Prod.fst) := by
  rw [executedIn, List.countP_map]
  exact List.countP_mono_left fun s _ split => isExecuted_of_splits split

theorem executedIn_part (skip : Label) (s : Insn × Option Int) :
    executedIn (part skip s) = executedIn [s.1] + [s].countP splits := by
  cases split : splits s with
  | true =>
    obtain ⟨op, target, d, rfl, noGoto, noJsr⟩ := splits_iff.1 split
    rw [part_of_splits noGoto noJsr, List.countP_singleton, split]
    rfl
  | false =>
    rw [part_of_keeps split, List.countP_singleton, split, executedIn_cons, executedIn_cons,
      isExecuted_wide]
    rfl

theorem executedIn_insnsFrom (next : UInt32) (steps : List (Insn × Option Int)) :
    executedIn (insnsFrom next steps) =
      executedIn (steps.map Prod.fst) + steps.countP splits := by
  induction steps generalizing next with
  | nil => rfl
  | cons s rest ih =>
    have counted : (s :: rest).countP splits = [s].countP splits + rest.countP splits :=
      by rw [← List.countP_append, List.singleton_append]
    have listed : executedIn ((s :: rest).map Prod.fst) =
        executedIn [s.1] + executedIn (rest.map Prod.fst) := executedIn_append [s.1] _
    rw [insnsFrom_cons, executedIn_append, executedIn_part, ih, counted, listed]
    omega

end Widening

theorem Code.widen_eq_ok_iff {c c' : Code} {far : List (Option Int)} {split : Bool} :
    c.widen far = .ok (c', split) ↔ (c.insns.zip far).all Widening.turns = true ∧
      c' = { c with
        insns := Widening.insnsFrom c.nextLabel (c.insns.zip far)
        nextLabel := c.nextLabel + UInt32.ofNat ((c.insns.zip far).countP Widening.splits) } ∧
      split = (c.insns.zip far).any Widening.splits := by
  unfold Code.widen
  rw [bind_ok_iff]
  constructor
  · rintro ⟨w, steps, run⟩
    obtain ⟨all, rfl⟩ := Widening.foldlM_eq_ok_iff.1 steps
    rw [Widening.foldl_done] at run
    cases run
    simp [all]
  · rintro ⟨all, rfl, rfl⟩
    refine ⟨_, Widening.foldlM_eq_ok_iff.2 ⟨all, rfl⟩, ?_⟩
    rw [Widening.foldl_done]
    simp [pure, Except.pure]

end ClassWeave
