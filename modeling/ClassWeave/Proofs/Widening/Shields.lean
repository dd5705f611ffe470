import Mathlib.Tactic.Common
import ClassWeave.Proofs.Binding
import ClassWeave.Proofs.Body.Reaching

/-!
# Branches that stay in reach

A branch that was turned around leads to a label behind one wide branch. Whatever becomes of the
body, only marks are put between the two, and the wide branch stays or is buried. So the branch
never gets out of reach, unless its label is bound in another place as well.
-/

set_option autoImplicit false

namespace ClassWeave

namespace Insn

/-- The target of a branch that has two bytes for its distance. -/
def shortTarget? : Insn → Option Label
  | .jump op target => if op.isWideJump then none else some target
  | _ => none

def isSteady : Insn → Bool
  | .simple _ => true
  | .jump op _ => op.isWideJump
  | _ => false

theorem shortTarget?_eq_some {insn : Insn} {l : Label} : insn.shortTarget? = some l ↔
    ∃ op, insn = .jump op l ∧ op.isWideJump = false := by
  cases insn <;> simp [shortTarget?, and_comm]

theorem shortTarget?_of_mark {insn : Insn} (still : insn.isExecuted = false) :
    insn.shortTarget? = none := by
  cases insn <;> simp_all [shortTarget?, isExecuted]

theorem shortTarget?_of_steady {insn : Insn} (steady : insn.isSteady = true) :
    insn.shortTarget? = none := by
  cases insn <;> simp_all [shortTarget?, isSteady]

end Insn

/-- The label stands behind no more than `k` steady instructions. -/
inductive Behind (l : Label) : Nat → List Insn → Prop
  | here {k : Nat} (rest : List Insn) : Behind l k (.label l :: rest)
  | mark {k : Nat} {insn : Insn} {rest : List Insn} (still : insn.isExecuted = false)
      (h : Behind l k rest) : Behind l k (insn :: rest)
  | past {k : Nat} {insn : Insn} {rest : List Insn} (steady : insn.isSteady = true)
      (h : Behind l k rest) : Behind l (k + 1) (insn :: rest)

/-- The target of each short branch is one of the `old` labels, or it stands behind no more than one
steady instruction. -/
def Shielded (old : List Label) : List Insn → Prop
  | [] => True
  | insn :: rest =>
    (∀ l, insn.shortTarget? = some l → l ∉ old → Behind l 1 rest) ∧ Shielded old rest

section Lists

variable {old : List Label} {l : Label} {k n : Nat} {insns rest : List Insn} {insn : Insn}

theorem Behind.binds (h : Behind l k insns) : Insn.label l ∈ insns := by
  induction h with
  | here rest => simp
  | mark still h ih => simp [ih]
  | past steady h ih => simp [ih]

theorem shielded_of_old (known : ∀ i ∈ insns, ∀ l, i.shortTarget? = some l → l ∈ old) :
    Shielded old insns := by
  induction insns with
  | nil => trivial
  | cons insn rest ih =>
    rw [List.forall_mem_cons] at known
    exact ⟨fun l target new => absurd (known.1 l target) new, ih known.2⟩

theorem Shielded.behind {front : List Insn} (h : Shielded old (front ++ insn :: rest))
    (target : insn.shortTarget? = some l) (new : l ∉ old) : Behind l 1 rest := by
  induction front with
  | nil => exact h.1 l target new
  | cons first front ih => exact ih h.2

theorem Shielded.binds (h : Shielded old insns) (mem : insn ∈ insns)
    (target : insn.shortTarget? = some l) (new : l ∉ old) : Insn.label l ∈ insns := by
  obtain ⟨front, back, rfl⟩ := List.append_of_mem mem
  simp [(h.behind target new).binds]

/-! Burying and binding -/

theorem isSteady_buried {live : Nat → Bool} {count : Nat} (steady : insn.isSteady = true) :
    (buried live count n insn).isSteady = true := by
  unfold buried
  split
  · exact steady
  · split <;> rfl

theorem shortTarget?_buried {live : Nat → Bool} {count : Nat}
    (target : (buried live count n insn).shortTarget? = some l) :
    insn.shortTarget? = some l := by
  unfold buried at target
  split at target
  · exact target
  · split at target <;> simp [Insn.shortTarget?] at target

theorem Behind.buryDead (h : Behind l k insns) (live : Nat → Bool) (count n : Nat) :
    Behind l k (Reframe.buryDead live count n insns []) := by
  induction h generalizing n with
  | here rest =>
    rw [buryDead_cons, buried_eq_label.2 rfl]
    exact .here _
  | mark still h ih =>
    rw [buryDead_cons]
    exact .mark (by rw [isExecuted_buried, still]) (ih _)
  | past steady h ih =>
    rw [buryDead_cons]
    exact .past (isSteady_buried steady) (ih _)

theorem Shielded.buryDead (h : Shielded old insns) (live : Nat → Bool) (count n : Nat) :
    Shielded old (Reframe.buryDead live count n insns []) := by
  induction insns generalizing n with
  | nil => exact h
  | cons insn rest ih =>
    rw [buryDead_cons]
    exact ⟨fun l target new => (h.1 l (shortTarget?_buried target) new).buryDead live count _,
      ih h.2 _⟩

theorem mark_of_mem_pendingLabel {pending : Std.TreeMap Nat Label}
    (mem : insn ∈ pendingLabel pending n) : insn.isExecuted = false := by
  obtain ⟨x, _, rfl⟩ := Option.map_eq_some_iff.1 (Option.mem_toList.1 mem)
  rfl

theorem Behind.append {marks : List Insn} (h : Behind l k insns)
    (still : ∀ i ∈ marks, i.isExecuted = false) : Behind l k (marks ++ insns) := by
  induction marks with
  | nil => exact h
  | cons insn rest ih =>
    rw [List.forall_mem_cons] at still
    exact .mark still.1 (ih still.2)

theorem Shielded.append {marks : List Insn} (h : Shielded old insns)
    (still : ∀ i ∈ marks, i.isExecuted = false) : Shielded old (marks ++ insns) := by
  induction marks with
  | nil => exact h
  | cons insn rest ih =>
    rw [List.forall_mem_cons] at still
    refine ⟨fun l target => ?_, ih still.2⟩
    simp [Insn.shortTarget?_of_mark still.1] at target

theorem bindPending_parts (pending : Std.TreeMap Nat Label) (n : Nat) (insn : Insn)
    (rest : List Insn) : ∃ marks : List Insn, (∀ i ∈ marks, i.isExecuted = false) ∧
      Labelling.bindPending pending n (insn :: rest) [] =
        marks ++ insn :: Labelling.bindPending pending (insn.next n) rest [] := by
  rw [bindPending_cons]
  split
  · exact ⟨_, fun i mem => mark_of_mem_pendingLabel mem, rfl⟩
  · exact ⟨[], by simp, rfl⟩

theorem Behind.bindPending (h : Behind l k insns) (pending : Std.TreeMap Nat Label) (n : Nat) :
    Behind l k (Labelling.bindPending pending n insns []) := by
  induction h generalizing n with
  | here rest =>
    obtain ⟨marks, still, parts⟩ := bindPending_parts pending n (.label l) rest
    rw [parts]
    exact (Behind.here _).append still
  | @mark k insn rest mark h ih =>
    obtain ⟨marks, still, parts⟩ := bindPending_parts pending n insn rest
    rw [parts]
    exact (Behind.mark mark (ih _)).append still
  | @past k insn rest steady h ih =>
    obtain ⟨marks, still, parts⟩ := bindPending_parts pending n insn rest
    rw [parts]
    exact (Behind.past steady (ih _)).append still

theorem Shielded.bindPending (h : Shielded old insns) (pending : Std.TreeMap Nat Label)
    (n : Nat) : Shielded old (Labelling.bindPending pending n insns []) := by
  induction insns generalizing n with
  | nil =>
    rw [bindPending_nil, ← List.append_nil (pendingLabel pending n)]
    exact Shielded.append h fun i mem => mark_of_mem_pendingLabel mem
  | cons insn rest ih =>
    obtain ⟨marks, still, parts⟩ := bindPending_parts pending n insn rest
    rw [parts]
    apply Shielded.append _ still
    exact ⟨fun l target new => (h.1 l target new).bindPending pending _, ih h.2 _⟩

end Lists

namespace Widening

def FarFrom (old : List Label) (s : Insn × Option Int) : Prop :=
  s.2.isSome = true → ∃ l ∈ old, s.1.shortTarget? = some l

variable {old : List Label} {l : Label} {k : Nat} {s : Insn × Option Int}
  {steps : List (Insn × Option Int)} {next : UInt32}

theorem part_of_near (near : s.2 = none) (skip : Label) :
    part skip s = [s.1] ∧ splits s = false := by
  obtain ⟨insn, far⟩ := s
  obtain rfl : far = none := near
  cases insn <;> exact ⟨rfl, rfl⟩

theorem FarFrom.near (far : FarFrom old s) (long : s.1.shortTarget? = none) : s.2 = none := by
  cases distance : s.2 with
  | none => rfl
  | some d =>
    obtain ⟨l, _, target⟩ := far (by simp [distance])
    simp [long] at target

theorem insnsFrom_near (near : s.2 = none) (steps : List (Insn × Option Int)) :
    insnsFrom next (s :: steps) = s.1 :: insnsFrom next steps := by
  obtain ⟨part, keeps⟩ := part_of_near near ⟨next⟩
  rw [insnsFrom_cons, part, after, keeps]
  rfl

end Widening

open Widening

section Widened

variable {old : List Label} {l : Label} {k : Nat} {steps : List (Insn × Option Int)}

theorem Behind.insnsFrom (h : Behind l k (steps.map Prod.fst))
    (far : ∀ s ∈ steps, FarFrom old s) (next : UInt32) : Behind l k (insnsFrom next steps) := by
  induction steps generalizing k next with
  | nil => cases h
  | cons s rest ih =>
    rw [List.forall_mem_cons] at far
    obtain ⟨insn, distance⟩ := s
    cases h with
    | here =>
      rw [insnsFrom_near (far.1.near rfl)]
      exact .here _
    | mark still h =>
      rw [insnsFrom_near (far.1.near (Insn.shortTarget?_of_mark still))]
      exact .mark still (ih h far.2 next)
    | past steady h =>
      rw [insnsFrom_near (far.1.near (Insn.shortTarget?_of_steady steady))]
      exact .past steady (ih h far.2 next)

theorem Shielded.insnsFrom (h : Shielded old (steps.map Prod.fst))
    (far : ∀ s ∈ steps, FarFrom old s) (next : UInt32) : Shielded old (insnsFrom next steps) := by
  induction steps generalizing next with
  | nil => exact h
  | cons s rest ih =>
    rw [List.forall_mem_cons] at far
    cases distance : s.2 with
    | none =>
      rw [insnsFrom_near distance]
      exact ⟨fun l target new => (h.1 l target new).insnsFrom far.2 next, ih h.2 far.2 next⟩
    | some d =>
      have behind := ih h.2 far.2 (after next s)
      rw [insnsFrom_cons]
      cases split : splits s with
      | true =>
        obtain ⟨op, target, d, rfl, noGoto, noJsr⟩ := splits_iff.1 split
        rw [part_of_splits noGoto noJsr]
        refine ⟨fun l target _ => ?_, fun l target => ?_, fun l target => ?_, behind⟩
        · obtain ⟨_, jump, _⟩ := Insn.shortTarget?_eq_some.1 target
          cases jump
          exact .past rfl (.here _)
        · simp [Insn.shortTarget?, Opcode.isWideJump] at target
        · simp [Insn.shortTarget?] at target
      | false =>
        obtain ⟨insn, some_d⟩ := s
        obtain rfl : some_d = some d := distance
        obtain ⟨l, _, target⟩ := far.1 rfl
        obtain ⟨op, rfl, _⟩ := Insn.shortTarget?_eq_some.1 target
        rw [part_of_keeps split]
        refine ⟨fun l target => ?_, behind⟩
        rw [wide] at target
        split at target <;> simp [Insn.shortTarget?, Opcode.isWideJump] at target

end Widened

namespace Layout

variable {old : List Label} {l : Layout} {x : Label} {k start finish : Nat} {insns : List Insn}

theorem size_of_steady {p : Placed} (steady : p.insn.isSteady = true) : p.size ≤ 5 := by
  obtain ⟨pc, insn, index⟩ := p
  cases insn with
  | simple op => simp [Placed.size, Insn.size]
  | jump op target =>
    simp only [Placed.size, Insn.size]
    split <;> omega
  | _ => simp [Insn.isSteady] at steady

theorem Chain.of_behind {ps : List Placed} (chain : Chain start ps finish)
    (h : Behind x k (ps.map Placed.insn)) :
    ∃ q ∈ ps, q.insn = .label x ∧ start ≤ q.offset ∧ q.offset ≤ start + 5 * k := by
  induction ps generalizing start k with
  | nil => cases h
  | cons p ps ih =>
    obtain ⟨offset, rest⟩ := chain
    have inside : ∀ j, Behind x j (ps.map Placed.insn) → p.size + 5 * j ≤ 5 * k →
        ∃ q ∈ p :: ps, q.insn = .label x ∧ start ≤ q.offset ∧ q.offset ≤ start + 5 * k := by
      intro j h room
      obtain ⟨q, mem, label, low, high⟩ := ih rest h
      exact ⟨q, List.mem_cons_of_mem _ mem, label, by omega, by omega⟩
    generalize same : p.insn = insn at h
    rw [List.map_cons, same] at h
    cases h with
    | here => exact ⟨p, by simp, same, by omega, by omega⟩
    | mark still h =>
      have flat : p.size = 0 := Placed.size_mark (by simp [same, still])
      exact inside k h (by omega)
    | @past j _ _ steady h =>
      have small := size_of_steady (same ▸ steady)
      exact inside j h (by omega)

theorem eq_of_label {ps : List Placed} (once : (boundLabels (ps.map Placed.insn)).count x ≤ 1)
    {p q : Placed} (hp : p ∈ ps) (hq : q ∈ ps) (labelp : p.insn = .label x)
    (labelq : q.insn = .label x) : p = q := by
  induction ps with
  | nil => simp at hp
  | cons r rest ih =>
    have behind : ∀ p ∈ rest, p.insn = .label x →
        0 < (boundLabels (rest.map Placed.insn)).count x := fun p mem label =>
      List.count_pos_iff.2 (mem_boundLabels.2 (List.mem_map.2 ⟨p, mem, label⟩))
    have here : r.insn = .label x → r.insn.bound?.toList.count x = 1 := by
      intro label
      simp [label, Insn.bound?]
    rw [List.map_cons, boundLabels_cons, List.count_append] at once
    rcases List.mem_cons.1 hp with rfl | laterp
    · rcases List.mem_cons.1 hq with rfl | laterq
      · rfl
      · have := behind q laterq labelq
        have := here labelp
        omega
    · rcases List.mem_cons.1 hq with rfl | laterq
      · have := behind p laterp labelp
        have := here labelq
        omega
      · exact ih (by omega) laterp laterq

theorem Laid.near_of_shielded (laid : Laid insns l) (shielded : Shielded old insns)
    {p : Placed} (mem : p ∈ l.placed) (target : p.insn.shortTarget? = some x) (new : x ∉ old)
    (once : (boundLabels insns).count x ≤ 1) : l.farDistance p = .ok none := by
  obtain ⟨front, back, split⟩ := List.append_of_mem mem
  obtain ⟨op, jump, short⟩ := Insn.shortTarget?_eq_some.1 target
  have chain := laid.chain
  rw [split, chain_append] at chain
  obtain ⟨_, _, here, behind⟩ := chain
  have marks := laid.insns
  rw [split, List.map_append, List.map_cons] at marks
  rw [← marks] at shielded
  obtain ⟨q, hq, label, low, high⟩ := behind.of_behind (shielded.behind target new)
  have inside : q ∈ l.placed := by simp [split, hq]
  have listed : Insn.label x ∈ insns := laid.insns ▸ List.mem_map.2 ⟨q, inside, label⟩
  obtain ⟨place, found⟩ := laid.find?_of_mem listed
  obtain ⟨r, hr, label', offset⟩ := laid.mem_of_find? found
  obtain rfl := eq_of_label (laid.insns.symm ▸ once) inside hr label label'
  have size : p.size = 3 := by simp [Placed.size, Insn.size, jump, short]
  have fits : fitsInt16 ((place : Int) - p.offset) = true := by
    simp only [fitsInt16, Bool.and_eq_true, decide_eq_true_eq]
    have := here
    omega
  unfold farDistance
  simp only [jump, short, Positions.place, found]
  exact congrArg Except.ok (if_pos fits)

end Layout

end ClassWeave
