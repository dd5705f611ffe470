import Mathlib.Data.List.Forall2
import Mathlib.Tactic.Common
import ClassWeave.ClassFile.Encode
import ClassWeave.Proofs.Emission
import ClassWeave.Proofs.Widening

/-!
# Bodies that are about to be written

Computing frames and widening branches changes a body, but every instruction of the result is one
of the body, a mark, filler for unreachable code or a form of a branch. So what holds of all
instructions and of those additions holds of the settled body, which is laid out as it stands.
-/

set_option autoImplicit false

namespace ClassWeave

/-- A property that settling a body keeps. -/
structure Insn.Lasting (P : Insn → Prop) : Prop where
  label : ∀ l, P (.label l)
  filler : P (.simple Opcode.nop) ∧ P (.simple Opcode.athrow)
  wide : ∀ op target, P (.jump op target) →
    P (.jump Opcode.gotoW target) ∧ P (.jump Opcode.jsrW target)
  inverse : ∀ op target inv skip, P (.jump op target) → op.opposite? = some inv →
    P (.jump inv skip)

theorem Opcode.isShortJump_of_opposite? {op inv : Opcode} (h : op.opposite? = some inv) :
    inv.isShortJump = true := by
  have paired : ∀ op ∈ run ifeq ifacmpne, isShortJump (((op - ifeq) ^^^ 1) + ifeq) = true := by
    decide +kernel
  unfold opposite? at h
  split at h
  · rename_i compares
    cases h
    exact paired op (mem_run compares)
  · split at h
    · rename_i null
      cases h
      rcases Bool.or_eq_true_iff.1 null with same | same
      · rw [beq_iff_eq.1 same]
        rfl
      · rw [beq_iff_eq.1 same]
        rfl
    · cases h

theorem Insn.lasting_true : Lasting fun _ => True where
  label _ := True.intro
  filler := ⟨True.intro, True.intro⟩
  wide _ _ _ := ⟨True.intro, True.intro⟩
  inverse _ _ _ _ _ _ := True.intro

theorem Insn.lasting_shaped : Lasting Shaped where
  label _ := True.intro
  filler := ⟨rfl, rfl⟩
  wide _ _ _ := ⟨.inr rfl, .inr rfl⟩
  inverse _ _ _ _ _ h := .inl (Opcode.isShortJump_of_opposite? h)

theorem Insn.lasting_within (limits : Limits) : Lasting (Within limits) where
  label _ := True.intro
  filler := ⟨True.intro, True.intro⟩
  wide _ _ _ := ⟨True.intro, True.intro⟩
  inverse _ _ _ _ _ _ := True.intro

variable {P : Insn → Prop}

section Widening

theorem Widening.forall_part (lasting : Insn.Lasting P) {s : Insn × Option Int} (hs : P s.1)
    (turned : turns s = true) (skip : Label) : ∀ i ∈ part skip s, P i := by
  cases split : splits s with
  | true =>
    obtain ⟨op, target, d, rfl, noGoto, noJsr⟩ := splits_iff.1 split
    rw [turns, split] at turned
    obtain ⟨inverse, opposite⟩ := Option.isSome_iff_exists.1 turned
    rw [part_of_splits noGoto noJsr, opposite]
    simp only [List.forall_mem_cons]
    exact ⟨lasting.inverse op target inverse skip hs opposite, (lasting.wide op target hs).1,
      lasting.label skip, by simp⟩
  | false =>
    rw [part_of_keeps split, List.forall_mem_singleton]
    unfold wide
    split
    · rename_i op target _
      split
      · exact (lasting.wide op target hs).1
      · exact (lasting.wide op target hs).2
    · exact hs

theorem Code.forall_widen (lasting : Insn.Lasting P) {c c' : Code} {far : List (Option Int)}
    {split : Bool} (hc : ∀ i ∈ c.insns, P i) (h : c.widen far = .ok (c', split)) :
    ∀ i ∈ c'.insns, P i := by
  obtain ⟨turned, rfl, _⟩ := Code.widen_eq_ok_iff.1 h
  intro i mem
  obtain ⟨s, old, skip, inside, _⟩ := Widening.mem_insnsFrom mem
  exact Widening.forall_part lasting (hc _ (List.of_mem_zip old).1)
    (List.all_eq_true.1 turned s old) skip i inside

end Widening

namespace Reframe

theorem forall_buryDead (lasting : Insn.Lasting P) (live : Nat → Bool) (count : Nat) {n : Nat}
    {insns done : List Insn} (hi : ∀ i ∈ insns, P i) (hd : ∀ i ∈ done, P i) :
    ∀ i ∈ buryDead live count n insns done, P i := by
  induction insns generalizing n done with
  | nil => exact fun i h => hd i (List.mem_reverse.1 h)
  | cons insn insns ih =>
    obtain ⟨first, rest⟩ := List.forall_mem_cons.1 hi
    rw [buryDead]
    split
    · refine ih rest (List.forall_mem_cons.2 ⟨?_, hd⟩)
      split
      · exact first
      · split
        · exact lasting.filler.1
        · exact lasting.filler.2
    · exact ih rest (List.forall_mem_cons.2 ⟨first, hd⟩)

theorem forall_bindPending (lasting : Insn.Lasting P) (pending : Std.TreeMap Nat Label) {n : Nat}
    {insns done : List Insn} (hi : ∀ i ∈ insns, P i) (hd : ∀ i ∈ done, P i) :
    ∀ i ∈ Labelling.bindPending pending n insns done, P i := by
  induction insns generalizing n done with
  | nil =>
    rw [Labelling.bindPending]
    split
    · exact fun i h => List.forall_mem_cons.2 ⟨lasting.label _, hd⟩ i (List.mem_reverse.1 h)
    · exact fun i h => hd i (List.mem_reverse.1 h)
  | cons insn insns ih =>
    obtain ⟨first, rest⟩ := List.forall_mem_cons.1 hi
    rw [Labelling.bindPending]
    split
    · split
      · refine ih rest (List.forall_mem_cons.2 ⟨first, ?_⟩)
        exact List.forall_mem_cons.2 ⟨lasting.label _, hd⟩
      · exact ih rest (List.forall_mem_cons.2 ⟨first, hd⟩)
    · exact ih rest (List.forall_mem_cons.2 ⟨first, hd⟩)

end Reframe

theorem forall_finish (lasting : Insn.Lasting P) (p : Reframe.Prepared) (withFrames : Bool)
    (done : Progress) {c : Code} (hc : ∀ i ∈ c.insns, P i) :
    ∀ i ∈ (p.finish withFrames done c).insns, P i := by
  cases withFrames with
  | false => exact hc
  | true =>
    refine Reframe.forall_bindPending lasting _ ?_ (by simp)
    exact Reframe.forall_buryDead lasting _ _ hc (by simp)

theorem forall_reframe (lasting : Insn.Lasting P) {h : Hierarchy} {owner : String} {m : Method}
    {c c' : Code} {withFrames : Bool} (hc : ∀ i ∈ c.insns, P i)
    (run : reframe h owner m c withFrames = .ok c') : ∀ i ∈ c'.insns, P i := by
  obtain ⟨p, _, run⟩ := bind_ok_iff.1 run
  obtain ⟨done, _, run⟩ := bind_ok_iff.1 run
  cases run
  exact forall_finish lasting p withFrames done hc

namespace ClassFile

variable {limits : Limits} {t : BodyTarget}

theorem answers_settleBranches (lasting : Insn.Lasting P) (rounds : Nat) {c : Code}
    (hc : ∀ i ∈ c.insns, P i) :
    Answers (settleBranches t rounds c) fun s =>
      Layout.Laid s.1.insns s.2 ∧ ∀ i ∈ s.1.insns, P i := by
  induction rounds generalizing c with
  | zero =>
    unfold settleBranches
    refine .bind (Layout.answers_ofInsns c.insns) fun l laid => .bind .trivial fun far _ => ?_
    split
    · exact .pure ⟨laid, hc⟩
    · exact .throw _
  | succ rounds ih =>
    unfold settleBranches
    refine .bind (Layout.answers_ofInsns c.insns) fun l laid => .bind .trivial fun far _ => ?_
    split
    · exact .pure ⟨laid, hc⟩
    · refine .bind (C := fun w => ∀ i ∈ w.1.insns, P i)
        (.lift fun w h => Code.forall_widen lasting hc h) fun w hw => ?_
      dsimp only
      split
      · exact .bind (.lift fun c h => forall_reframe lasting hw h) fun c hc => ih hc
      · exact ih hw

theorem grows_settleBranches (rounds : Nat) {c : Code} (hc : ∀ i ∈ c.insns, i.Within limits) :
    Grows limits (settleBranches t rounds c) fun f s => Layout.Valid f s.1.insns s.2 := by
  induction rounds generalizing c with
  | zero =>
    unfold settleBranches
    refine .bind (Layout.grows_ofInsns hc) fun l _ => ?_
    refine .bind (P := fun _ _ => True) (.lift fun _ _ _ => True.intro) fun far _ => ?_
    split
    · exact .pure fun f _ valid => valid
    · exact .throw _ _
  | succ rounds ih =>
    unfold settleBranches
    refine .bind (Layout.grows_ofInsns hc) fun l _ => ?_
    refine .bind (P := fun _ _ => True) (.lift fun _ _ _ => True.intro) fun far _ => ?_
    split
    · exact .pure fun f _ valid => valid
    · refine .bind (P := fun _ w => ∀ i ∈ w.1.insns, i.Within limits)
        (.lift fun _ w h => Code.forall_widen (Insn.lasting_within limits) hc h) fun w hw => ?_
      obtain ⟨_, hw⟩ := hw
      dsimp only
      split
      · refine .bind (P := fun _ c => ∀ i ∈ c.insns, i.Within limits)
          (.lift fun _ c h => forall_reframe (Insn.lasting_within limits) hw h) fun c hc => ?_
        obtain ⟨_, hc⟩ := hc
        exact .mono (ih hc) fun f s h _ _ _ _ => h
      · exact .mono (ih hw) fun f s h _ _ _ => h

namespace BodyTarget

def settle (t : BodyTarget) (code : Code) : Tables.Growth (Code × Layout) := do
  let c ← if code.frames.isNone then t.reframe code else pure code
  settleBranches t (c.insns.length + 1) c

theorem answers_settle (lasting : Insn.Lasting P) {c : Code} (hc : ∀ i ∈ c.insns, P i) :
    Answers (t.settle c) fun s => Layout.Laid s.1.insns s.2 ∧ ∀ i ∈ s.1.insns, P i := by
  unfold settle
  split
  · refine .bind (.lift fun c h => forall_reframe lasting hc h) fun c hc => ?_
    exact answers_settleBranches lasting _ hc
  · exact answers_settleBranches lasting _ hc

theorem grows_settle {c : Code} (hc : ∀ i ∈ c.insns, i.Within limits) :
    Grows limits (t.settle c) fun f s => Layout.Valid f s.1.insns s.2 := by
  unfold settle
  split
  · refine .bind (P := fun _ c => ∀ i ∈ c.insns, i.Within limits)
      (.lift fun _ c h => forall_reframe (Insn.lasting_within limits) hc h) fun c hc => ?_
    obtain ⟨_, hc⟩ := hc
    exact .mono (grows_settleBranches _ hc) fun f s h _ => h
  · exact grows_settleBranches _ hc

end BodyTarget

end ClassFile

end ClassWeave
