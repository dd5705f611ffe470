import Mathlib.Data.List.Forall2
import Mathlib.Tactic.Common
import ClassWeave.Proofs.Analysis.Burial
import ClassWeave.Proofs.Body.Settling

/-!
# Bodies whose branches reach

A round of widening leaves a trace that no later round removes: a wide branch, or one more
instruction where a conditional branch was turned around. So a body without wide branches that is
written as it stands went through no round. It was laid out once, and every branch reached.
-/

set_option autoImplicit false

namespace ClassWeave

section

variable {σ α β : Type}

theorem bind_ok_run {m : GrowthOf σ α} {k : α → GrowthOf σ β} {s t : σ} {a : α}
    (run : m s = (.ok a, t)) : (m >>= k) s = k a t := by
  change ExceptT.bindCont k (m s).1 (m s).2 = _
  rw [run]
  rfl

theorem lift_run_ok {x : Except WriteError α} {s t : σ} {a : α}
    (run : (liftM x : GrowthOf σ α) s = (.ok a, t)) : x = .ok a ∧ s = t := by
  cases x with
  | error e => cases run
  | ok b =>
    cases run
    exact ⟨rfl, rfl⟩

end

def Insn.isWideBranch : Insn → Bool
  | .jump op _ => op.isWideJump
  | _ => false

def Insn.isBranch : Insn → Bool
  | .jump _ _ => true
  | _ => false

structure Code.Narrow (c : Code) : Prop where
  framed : c.frames.isSome = true
  narrow : ∀ i ∈ c.insns, i.isWideBranch = false

namespace Layout

variable {l : Layout}

def Reaches (l : Layout) : Prop := ∀ p ∈ l.placed, l.farDistance p = .ok none

theorem reaches_iff :
    l.Reaches ↔ ∃ far, l.farDistances = .ok far ∧ far.all Option.isNone = true := by
  constructor
  · intro reaches
    refine ⟨l.placed.map fun _ => none, mapM_ok_iff.2 ?_, by simp⟩
    exact List.forall₂_map_right_iff.2 (List.forall₂_same.2 reaches)
  · rintro ⟨far, run, none⟩ p hp
    obtain ⟨d, hd, same⟩ := exists_left_of_forall₂ (mapM_ok_iff.1 run).flip hp
    rw [same, Option.isNone_iff_eq_none.1 (List.all_eq_true.1 none d hd)]

theorem exists_placed_of_mem_zip {insns : List Insn} (laid : Laid insns l)
    {far : List (Option Int)} (run : l.farDistances = .ok far) {s : Insn × Option Int}
    (hs : s ∈ insns.zip far) : ∃ p ∈ l.placed, p.insn = s.1 ∧ l.farDistance p = .ok s.2 := by
  obtain ⟨_, each⟩ := List.forall₂_iff_zip.1 (mapM_ok_iff.1 run)
  rw [← laid.insns, List.zip_map_left] at hs
  obtain ⟨⟨p, d⟩, mem, rfl⟩ := List.mem_map.1 hs
  exact ⟨p, (List.of_mem_zip mem).1, rfl, each mem⟩

theorem Laid.length_farDistances {insns : List Insn} (laid : Laid insns l)
    {far : List (Option Int)} (run : l.farDistances = .ok far) : far.length = insns.length := by
  rw [← laid.insns, List.length_map, (mapM_ok_iff.1 run).length_eq]

theorem farDistance_of_mem_zip {insns : List Insn} (laid : Laid insns l) {far : List (Option Int)}
    (run : l.farDistances = .ok far) {d : Option Int} (hd : d ∈ far) :
    ∃ p ∈ l.placed, l.farDistance p = .ok d ∧ (p.insn, d) ∈ insns.zip far := by
  rw [← List.map_snd_zip (Nat.le_of_eq (laid.length_farDistances run))] at hd
  obtain ⟨s, hs, rfl⟩ := List.mem_map.1 hd
  obtain ⟨p, hp, insn, found⟩ := exists_placed_of_mem_zip laid run hs
  exact ⟨p, hp, found, insn ▸ hs⟩

theorem isBranch_of_farDistance {p : Placed} {d : Int} (far : l.farDistance p = .ok (some d)) :
    p.insn.isBranch = true := by
  unfold farDistance at far
  split at far
  · rename_i branch
    rw [branch]
    rfl
  · cases far

end Layout

def Stretched (s : Insn × Option Int) : Prop :=
  s.1.isWideBranch = true ∨ s.2.isSome = true ∧ s.1.isBranch = true

theorem Widening.exists_wide {steps : List (Insn × Option Int)} {s : Insn × Option Int}
    (mem : s ∈ steps) (stretched : Stretched s) (next : UInt32) :
    ∃ i ∈ insnsFrom next steps, i.isWideBranch = true := by
  obtain ⟨front, back, rfl⟩ := List.append_of_mem mem
  rw [insnsFrom_at]
  cases split : splits s with
  | true =>
    obtain ⟨op, target, d, rfl, noGoto, noJsr⟩ := splits_iff.1 split
    rw [part_of_splits noGoto noJsr]
    exact ⟨.jump Opcode.gotoW target, by simp, rfl⟩
  | false =>
    rw [part_of_keeps split]
    refine ⟨wide s, by simp, ?_⟩
    rcases stretched with isWide | ⟨isFar, branch⟩
    · unfold wide
      split
      · split <;> rfl
      · exact isWide
    · obtain ⟨insn, far⟩ := s
      obtain ⟨d, rfl⟩ := Option.isSome_iff_exists.1 isFar
      cases insn with
      | jump op target =>
        rw [wide]
        split <;> rfl
      | _ => cases branch

def Outgrows (n : Nat) (insns : List Insn) : Prop :=
  n < insns.countP Insn.isExecuted ∨
    n ≤ insns.countP Insn.isExecuted ∧ ∃ i ∈ insns, i.isWideBranch = true

namespace Code

variable {c c' : Code} {far : List (Option Int)} {split : Bool} {n : Nat}

theorem stretches_widen (whole : far.length = c.insns.length)
    (run : c.widen far = .ok (c', split)) :
    c.insns.countP Insn.isExecuted ≤ c'.insns.countP Insn.isExecuted ∧
      (split = true → c.insns.countP Insn.isExecuted < c'.insns.countP Insn.isExecuted) ∧
      ((∃ s ∈ c.insns.zip far, Stretched s) → ∃ i ∈ c'.insns, i.isWideBranch = true) := by
  obtain ⟨_, rfl, rfl⟩ := widen_eq_ok_iff.1 run
  have count := Widening.executedIn_insnsFrom c.nextLabel (c.insns.zip far)
  rw [List.map_fst_zip (Nat.le_of_eq whole.symm), executedIn, executedIn] at count
  dsimp only
  rw [count]
  refine ⟨Nat.le_add_right _ _, fun turned => ?_, ?_⟩
  · have some_turned := List.countP_pos_iff.2 (List.any_eq_true.1 turned)
    omega
  · rintro ⟨s, hs, stretched⟩
    exact Widening.exists_wide hs stretched c.nextLabel

theorem outgrows_widen (whole : far.length = c.insns.length)
    (run : c.widen far = .ok (c', split)) (h : Outgrows n c.insns) :
    (split = true → n < c'.insns.countP Insn.isExecuted) ∧ Outgrows n c'.insns := by
  obtain ⟨count, grown, wide⟩ := stretches_widen whole run
  have least : n ≤ c.insns.countP Insn.isExecuted := h.elim Nat.le_of_lt And.left
  refine ⟨fun split => Nat.lt_of_le_of_lt least (grown split), ?_⟩
  rcases h with more | ⟨_, i, hi, isWide⟩
  · exact .inl (Nat.lt_of_lt_of_le more count)
  · refine .inr ⟨Nat.le_trans least count, wide ?_⟩
    rw [← List.map_fst_zip (Nat.le_of_eq whole.symm)] at hi
    obtain ⟨s, hs, rfl⟩ := List.mem_map.1 hi
    exact ⟨s, hs, .inl isWide⟩

theorem countP_finish (p : Reframe.Prepared) (withFrames : Bool) (done : Progress) (c : Code) :
    (p.finish withFrames done c).insns.countP Insn.isExecuted =
      c.insns.countP Insn.isExecuted := by
  cases withFrames with
  | false => rfl
  | true =>
    show (Labelling.bindPending _ 0 (Reframe.buryDead _ _ 0 c.insns []) []).countP _ = _
    rw [List.countP_eq_length_filter, executed_bindPending, ← List.countP_eq_length_filter,
      countP_buryDead]

theorem countP_reframe {h : Hierarchy} {owner : String} {m : Method} {withFrames : Bool}
    (run : reframe h owner m c withFrames = .ok c') :
    c'.insns.countP Insn.isExecuted = c.insns.countP Insn.isExecuted := by
  obtain ⟨p, _, run⟩ := bind_ok_iff.1 run
  obtain ⟨done, _, run⟩ := bind_ok_iff.1 run
  cases run
  exact countP_finish p withFrames done c

end Code

namespace ClassFile

variable {t : BodyTarget} {c c' : Code} {l : Layout} {s u : Tables}

theorem answers_outgrows (rounds : Nat) {n : Nat} (h : Outgrows n c.insns) :
    Answers (settleBranches t rounds c) fun r => Outgrows n r.1.insns := by
  induction rounds generalizing c with
  | zero =>
    unfold settleBranches
    refine .bind .trivial fun l _ => .bind .trivial fun far _ => ?_
    split
    · exact .pure h
    · exact .throw _
  | succ rounds ih =>
    unfold settleBranches
    refine .bind (Layout.answers_ofInsns c.insns) fun l laid => ?_
    refine .bind (.lift fun far run => laid.length_farDistances run) fun far whole => ?_
    split
    · exact .pure h
    · refine .bind (.lift fun w run => Code.outgrows_widen whole run h) fun w hw => ?_
      dsimp only
      split
      · rename_i split
        refine .bind (.lift fun c run => Code.countP_reframe run) fun c same => ?_
        exact ih (.inl (same ▸ hw.1 split))
      · exact ih hw.2

theorem settleBranches_unwidened {rounds : Nat}
    (narrow : ∀ i ∈ c.insns, i.isWideBranch = false)
    (run : settleBranches t rounds c s = (.ok (c', l), u)) (same : c'.insns = c.insns) :
    c' = c ∧ Layout.ofInsns c.insns s = (.ok l, u) ∧ l.Reaches := by
  have fits : ¬ Outgrows (c.insns.countP Insn.isExecuted) c.insns := by
    rintro (more | ⟨_, i, hi, wide⟩)
    · exact Nat.lt_irrefl _ more
    · rw [narrow i hi] at wide
      cases wide
  -- a branch out of reach leaves more than there was
  have widened : ∀ {l : Layout} {far : List (Option Int)} {w : Code × Bool},
      Layout.Laid c.insns l → l.farDistances = .ok far → ¬ far.all Option.isNone = true →
      c.widen far = .ok w →
      (w.2 = true → c.insns.countP Insn.isExecuted < w.1.insns.countP Insn.isExecuted) ∧
        Outgrows (c.insns.countP Insn.isExecuted) w.1.insns := by
    intro l far w laid found some_far run
    obtain ⟨count, grown, wide⟩ := Code.stretches_widen (laid.length_farDistances found) run
    refine ⟨grown, .inr ⟨count, wide ?_⟩⟩
    simp only [List.all_eq_true, not_forall] at some_far
    obtain ⟨d, hd, isFar⟩ := some_far
    obtain ⟨p, _, distance, mem⟩ := Layout.farDistance_of_mem_zip laid found hd
    cases d with
    | none => exact absurd rfl isFar
    | some d => exact ⟨_, mem, .inr ⟨rfl, Layout.isBranch_of_farDistance distance⟩⟩
  unfold settleBranches at run
  obtain ⟨l', s', laying, run⟩ := bind_run_ok run
  have laid := Layout.answers_ofInsns c.insns _ _ _ laying
  obtain ⟨far, s'', distances, run⟩ := bind_run_ok run
  obtain ⟨found, rfl⟩ := lift_run_ok distances
  split at run
  · rename_i none
    cases run
    exact ⟨rfl, laying, Layout.reaches_iff.2 ⟨far, found, none⟩⟩
  · rename_i some_far
    exfalso
    cases rounds with
    | zero => cases run
    | succ rounds =>
      obtain ⟨w, s'', widen, run⟩ := bind_run_ok run
      obtain ⟨grown, outgrown⟩ := widened laid found some_far (lift_run_ok widen).1
      dsimp only at run
      split at run
      · rename_i split
        obtain ⟨d, s₃, reframed, run⟩ := bind_run_ok run
        have count := Code.countP_reframe (lift_run_ok reframed).1
        have last := answers_outgrows rounds (.inl (count ▸ grown split)) _ _ _ run
        exact fits (same ▸ last)
      · exact fits (same ▸ answers_outgrows rounds outgrown _ _ _ run)

theorem settleBranches_reaches (rounds : Nat) (run : Layout.ofInsns c.insns s = (.ok l, u))
    (reaches : l.Reaches) : settleBranches t rounds c s = (.ok (c, l), u) := by
  obtain ⟨far, found, none⟩ := Layout.reaches_iff.1 reaches
  unfold settleBranches
  rw [bind_ok_run run, found]
  show (if far.all Option.isNone = true then pure (c, l) else _ : Tables.Growth _) u = _
  rw [if_pos none]
  rfl

namespace BodyTarget

theorem settle_framed (framed : c.frames.isSome = true) :
    t.settle c = settleBranches t (c.insns.length + 1) c := by
  obtain ⟨frames, some_frames⟩ := Option.isSome_iff_exists.1 framed
  unfold settle
  rw [some_frames]
  rfl

theorem settle_narrow (narrow : c.Narrow) (run : t.settle c s = (.ok (c', l), u))
    (same : c'.insns = c.insns) : c' = c ∧ Layout.ofInsns c.insns s = (.ok l, u) ∧ l.Reaches := by
  rw [settle_framed narrow.framed] at run
  exact settleBranches_unwidened narrow.narrow run same

theorem settle_reaches (framed : c.frames.isSome = true)
    (run : Layout.ofInsns c.insns s = (.ok l, u)) (reaches : l.Reaches) :
    t.settle c s = (.ok (c, l), u) := by
  rw [settle_framed framed]
  exact settleBranches_reaches _ run reaches

end BodyTarget

end ClassFile

end ClassWeave
