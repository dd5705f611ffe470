import Mathlib.Tactic.Common
import Mathlib.Tactic.Linarith
import ClassWeave.Proofs.Analysis.Circling
import ClassWeave.Proofs.CodeArray
import ClassWeave.Proofs.Widening.Supply

/-!
# The rounds of widening end

A body grows from round to round where branches are turned around, and unreachable code shrinks, so
its length bounds nothing. What goes down in each round is the number of short branches to labels
that the body had at first. This needs numbers for the labels that are taken: behind the last one
they start anew, and a branch could be led astray over and over. A round in which frames are
computed anew may never come to its own end, if the work list of the analysis does not.
-/

set_option autoImplicit false

namespace ClassWeave

def Insn.isNew : Insn → Bool
  | .typeOp op _ => op == Opcode.new
  | _ => false

def newSites (insns : List Insn) : Nat := insns.countP Insn.isNew

def Code.turns (c : Code) : Nat :=
  c.insns.countP (·.shortTarget?.isSome) + (boundLabels c.insns).length

namespace Reframe

theorem next_labelAt (i : Nat) (s : Labelling) :
    ((Labelling.labelAt i).run s).2.next = s.next ∨
      ((Labelling.labelAt i).run s).2.next = s.next + 1 := by
  show ((Labelling.labelAt i) s).2.next = _ ∨ ((Labelling.labelAt i) s).2.next = _
  unfold Labelling.labelAt
  cases s.known[i]? with
  | some l => exact .inl rfl
  | none => exact .inr rfl

theorem next_siteLabels (n : Nat) (insns : List Insn) (sites : Std.TreeMap Nat Label)
    (s : Labelling) : ∃ k ≤ newSites insns,
      ((siteLabels n insns sites).run s).2.next = s.next + UInt32.ofNat k := by
  induction insns generalizing n sites s with
  | nil => exact ⟨0, Nat.zero_le _, (UInt32.add_zero _).symm⟩
  | cons insn rest ih =>
    have counted : newSites (insn :: rest) = newSites rest + if insn.isNew then 1 else 0 :=
      List.countP_cons
    have skip := ih (n + 1) sites s
    rw [siteLabels.eq_def]
    dsimp only
    split
    · rename_i op name
      split
      · rename_i isNew
        have one : (Insn.typeOp op name).isNew = true := by simp [Insn.isNew, isNew]
        rw [if_pos one] at counted
        obtain ⟨k, few, next⟩ := ih (n + 1) (sites.insert n ((Labelling.labelAt n).run s).1)
          ((Labelling.labelAt n).run s).2
        rcases next_labelAt n s with same | more
        · exact ⟨k, by omega, next.trans (by rw [same])⟩
        · refine ⟨k + 1, by omega, next.trans ?_⟩
          rw [more, UInt32.add_assoc, Nat.add_comm, UInt32.ofNat_add]
          rfl
      · obtain ⟨k, few, next⟩ := skip
        exact ⟨k, by omega, next⟩
    · obtain ⟨k, few, next⟩ := skip
      exact ⟨k, by omega, next⟩

theorem next_finish {h : Hierarchy} {owner : String} {m : Method} {c : Code} {p : Prepared}
    (made : prepare h owner m c = .ok p) (done : Progress) :
    (p.finish false done c).insns = c.insns ∧ ∃ k ≤ newSites c.insns,
      (p.finish false done c).nextLabel = c.nextLabel + UInt32.ofNat k := by
  obtain ⟨d, _, made⟩ := bind_ok_iff.1 made
  obtain ⟨flow, ofCode, made⟩ := bind_ok_iff.1 made
  obtain ⟨targets, _, made⟩ := bind_ok_iff.1 made
  cases made
  obtain ⟨k, few, next⟩ := next_siteLabels 0 flow.insns.toList ∅
    (Labelling.ofPositions flow.positions c.nextLabel)
  refine ⟨rfl, k, Nat.le_trans few ?_, next⟩
  rw [(Flow.ofCode_eq ofCode).1]
  exact List.filter_sublist.countP_le

end Reframe

theorem newSites_insnsFrom (next : UInt32) (steps : List (Insn × Option Int)) :
    newSites (Widening.insnsFrom next steps) = newSites (steps.map Prod.fst) := by
  have same (s : Insn × Option Int) : (Widening.wide s).isNew = s.1.isNew := by
    unfold Widening.wide
    split <;> rfl
  induction steps generalizing next with
  | nil => rfl
  | cons s rest ih =>
    have parts : newSites (Widening.part ⟨next⟩ s) = newSites [s.1] := by
      cases split : Widening.splits s with
      | true =>
        obtain ⟨op, target, d, rfl, noGoto, noJsr⟩ := Widening.splits_iff.1 split
        rw [Widening.part_of_splits noGoto noJsr]
        rfl
      | false => simp [Widening.part_of_keeps split, newSites, List.countP_cons, same]
    have listed : newSites ((s :: rest).map Prod.fst) =
        newSites [s.1] + newSites (rest.map Prod.fst) := by
      simp [newSites, List.countP_cons, Nat.add_comm]
    rw [Widening.insnsFrom_cons, listed, ← parts, ← ih (Widening.after next s)]
    exact List.countP_append

theorem Insn.lasting_branch : Lasting fun i => i.isBranch = true → i.Shaped where
  label _ := nofun
  filler := ⟨nofun, nofun⟩
  wide _ _ _ := ⟨fun _ => .inr rfl, fun _ => .inr rfl⟩
  inverse _ _ _ _ _ h _ := .inl (Opcode.isShortJump_of_opposite? h)

theorem Opcode.isSome_opposite? {op : Opcode} (short : op.isShortJump = true)
    (noGoto : op ≠ goto) (noJsr : op ≠ jsr) : op.opposite?.isSome = true := by
  have compares : ∀ op ∈ run ifeq jsr, op ≠ goto → op ≠ jsr → op.opposite?.isSome = true := by
    decide +kernel
  rw [isShortJump, Bool.or_eq_true, Bool.or_eq_true, beq_iff_eq, beq_iff_eq] at short
  rcases short with (inside | rfl) | rfl
  · exact compares op (mem_run inside) noGoto noJsr
  · rfl
  · rfl

namespace Layout

variable {l : Layout} {c : Code} {old : List Label} {far : List (Option Int)}

theorem shortTarget?_of_far {p : Placed} {d : Int} (far : l.farDistance p = .ok (some d)) :
    ∃ x, p.insn.shortTarget? = some x := by
  unfold farDistance at far
  split at far
  · rename_i op target jump
    split at far
    · cases far
    · rename_i short
      exact ⟨target, by simp [jump, Insn.shortTarget?, short]⟩
  · cases far

theorem farFrom_of_shielded (laid : Laid c.insns l) (found : l.farDistances = .ok far)
    (shielded : Shielded old c.insns) (once : ∀ x ∉ old, (boundLabels c.insns).count x ≤ 1) :
    ∀ s ∈ c.insns.zip far, Widening.FarFrom old s := by
  intro s mem isFar
  obtain ⟨d, some_d⟩ := Option.isSome_iff_exists.1 isFar
  obtain ⟨p, hp, insn, distance⟩ := exists_placed_of_mem_zip laid found mem
  rw [some_d] at distance
  obtain ⟨x, target⟩ := shortTarget?_of_far distance
  by_cases known : x ∈ old
  · exact ⟨x, known, insn ▸ target⟩
  · have near := laid.near_of_shielded shielded hp target known (once x known)
    rw [near] at distance
    cases distance

theorem countP_far_pos (laid : Laid c.insns l) (found : l.farDistances = .ok far)
    (some_far : far.all Option.isNone = false) :
    0 < (c.insns.zip far).countP (·.2.isSome) := by
  simp only [List.all_eq_false] at some_far
  obtain ⟨d, mem, isFar⟩ := some_far
  obtain ⟨p, _, _, inside⟩ := farDistance_of_mem_zip laid found mem
  refine List.countP_pos_iff.2 ⟨_, inside, ?_⟩
  cases d <;> simp_all

end Layout

theorem Widening.turns_of_shaped {old : List Label} {s : Insn × Option Int}
    (far : FarFrom old s) (shaped : s.1.isBranch = true → s.1.Shaped) : turns s = true := by
  by_cases split : splits s = true
  · obtain ⟨op, target, d, rfl, noGoto, noJsr⟩ := splits_iff.1 split
    obtain ⟨_, _, short⟩ := far rfl
    obtain ⟨_, jump, narrow⟩ := Insn.shortTarget?_eq_some.1 short
    cases jump
    have form := (shaped rfl).resolve_right (by simp [narrow])
    simp [turns, Opcode.isSome_opposite? form noGoto noJsr]
  · simp [turns, split]

theorem Widening.countP_splits_le (steps : List (Insn × Option Int)) :
    steps.countP splits ≤ steps.countP (·.2.isSome) := by
  refine List.countP_mono_left fun s _ split => ?_
  obtain ⟨op, target, d, rfl, _⟩ := splits_iff.1 split
  rfl

namespace ClassFile

def BodyTarget.labelsTaken (t : BodyTarget) (c : Code) : Nat :=
  if t.withFrames then 2 * c.turns + executedIn c.insns + 1
  else c.turns * (newSites c.insns + 1)

noncomputable def demand (t : BodyTarget) (c₀ c : Code) (taken : Nat) : Nat :=
  if t.withFrames then 2 * loose c₀ c taken +
    (executedIn c.insns + 1 - (newPlaces (boundLabels c₀.insns) c.insns).ncard)
  else loose c₀ c taken * (newSites c₀.insns + 1)

/-- What the rounds keep. -/
structure Settling (t : BodyTarget) (c₀ c : Code) (taken : Nat) : Prop
    extends Tally c₀ c taken where
  shaped : ∀ i ∈ c.insns, i.isBranch = true → i.Shaped
  shielded : Shielded (boundLabels c₀.insns) c.insns
  few : loose c₀ c taken ≤ c₀.turns
  grown : executedIn c.insns + loose c₀ c taken ≤ executedIn c₀.insns + c₀.turns
  sites : t.withFrames = false → newSites c.insns = newSites c₀.insns
  supply : taken + demand t c₀ c taken ≤ t.labelsTaken c₀

variable {t : BodyTarget} {c₀ c c' : Code} {l : Layout} {far : List (Option Int)} {taken : Nat}

theorem loose_le_demand (t : BodyTarget) (c₀ c : Code) (taken : Nat) :
    loose c₀ c taken ≤ demand t c₀ c taken := by
  unfold demand
  split
  · omega
  · exact Nat.le_mul_of_pos_right _ (Nat.succ_pos _)

theorem loose_le_turns (c : Code) : loose c c 0 ≤ c.turns := by
  have short : risky (boundLabels c.insns) c.insns ≤
      c.insns.countP (·.shortTarget?.isSome) := by
    refine List.countP_mono_left fun i _ counted => ?_
    obtain ⟨l, target, _⟩ := (Option.any_eq_true ..).1 counted
    simp [target]
  have labels : spare (boundLabels c.insns) c.nextLabel 0 ≤ (boundLabels c.insns).length :=
    List.countP_le_length
  rw [loose, Code.turns]
  omega

theorem Settling.refl (t : BodyTarget) (shaped : ∀ i ∈ c.insns, i.isBranch = true → i.Shaped)
    (bound : ∀ i ∈ c.insns, ∀ x, i.shortTarget? = some x → c.Binds x) : Settling t c c 0 where
  toTally := .refl c
  shaped := shaped
  shielded := shielded_of_old fun i mem x target => mem_boundLabels.2 (bound i mem x target)
  few := loose_le_turns c
  grown := Nat.add_le_add_left (loose_le_turns c) _
  sites _ := rfl
  supply := by
    have few := loose_le_turns c
    rw [Nat.zero_add, demand, BodyTarget.labelsTaken]
    split
    · omega
    · exact Nat.mul_le_mul_right _ few

/-- In a widening with `far` far branches, `k` were turned around. -/
structure Widened (c₀ c c' : Code) (taken k far : Nat) : Prop where
  tally : Tally c₀ c' (taken + k)
  shielded : Shielded (boundLabels c₀.insns) c'.insns
  turned : k ≤ far
  cost : loose c₀ c' (taken + k) + far ≤ loose c₀ c taken
  executed : executedIn c'.insns = executedIn c.insns + k
  sites : newSites c'.insns = newSites c.insns
  places : (newPlaces (boundLabels c₀.insns) c.insns).ncard ≤
    (newPlaces (boundLabels c₀.insns) c'.insns).ncard

theorem Settling.widened (h : Settling t c₀ c taken) (enough : t.labelsTaken c₀ ≤ 4294967296)
    (laid : Layout.Laid c.insns l) (found : l.farDistances = .ok far)
    (some_far : far.all Option.isNone = false) {split : Bool}
    (run : c.widen far = .ok (c', split)) : ∃ k far, 0 < far ∧ (split = false → k = 0) ∧
      Widened c₀ c c' taken k far := by
  have whole : (c.insns.zip far).map Prod.fst = c.insns :=
    List.map_fst_zip (Nat.le_of_eq (laid.length_farDistances found).symm)
  have farFrom := Layout.farFrom_of_shielded laid found h.shielded fun x => h.once
  have turned := Widening.countP_splits_le (c.insns.zip far)
  have risk := Widening.countP_far_le farFrom
  obtain ⟨_, rfl, rfl⟩ := Code.widen_eq_ok_iff.1 run
  have room : taken + (c.insns.zip far).countP Widening.splits ≤ 4294967296 := by
    have := h.supply
    have := loose_le_demand t c₀ c taken
    rw [whole] at risk
    rw [loose] at this
    omega
  refine ⟨(c.insns.zip far).countP Widening.splits, _,
    Layout.countP_far_pos laid found some_far, fun none => ?_, ?_⟩
  · exact List.countP_eq_zero.2 fun s mem => by simpa using List.any_eq_false.1 none s mem
  · refine ⟨h.widen whole rfl rfl room, ?_, turned, h.loose_widen whole rfl farFrom room, ?_, ?_,
      h.newPlaces_widen whole rfl room⟩
    · exact Shielded.insnsFrom (whole.symm ▸ h.shielded) farFrom _
    · rw [Widening.executedIn_insnsFrom, whole]
    · rw [newSites_insnsFrom, whole]

/-- The frames of a body are computed, in as many steps as it takes, and this is the answer. -/
inductive BodyTarget.Recomputes (t : BodyTarget) (c : Code) : Except WriteError Code → Prop
  | refused {e : WriteError} (fails : Reframe.prepare t.hierarchy t.owner t.method c = .error e) :
      t.Recomputes c (.error e)
  | failed {p : Reframe.Prepared} {steps : Nat} {e : WriteError}
      (made : Reframe.prepare t.hierarchy t.owner t.method c = .ok p)
      (ends : p.analysis.Ends steps (p.analysis.entered p.entry) [0] 0 (.error e)) :
      t.Recomputes c (.error e)
  | finished {p : Reframe.Prepared} {steps : Nat} {done : Progress}
      (made : Reframe.prepare t.hierarchy t.owner t.method c = .ok p)
      (ends : p.analysis.Ends steps (p.analysis.entered p.entry) [0] 0 (.ok done)) :
      t.Recomputes c (.ok (p.finish t.withFrames done c))

def BodyTarget.Endless (t : BodyTarget) (c : Code) : Prop :=
  ∃ p, Reframe.prepare t.hierarchy t.owner t.method c = .ok p ∧
    ∀ steps outcome, ¬ p.analysis.Ends steps (p.analysis.entered p.entry) [0] 0 outcome

namespace BodyTarget

variable {o o' : Except WriteError Code}

theorem recomputes_or_endless (t : BodyTarget) (c : Code) :
    (∃ o, t.Recomputes c o) ∨ t.Endless c := by
  cases made : Reframe.prepare t.hierarchy t.owner t.method c with
  | error e => exact .inl ⟨_, .refused made⟩
  | ok p =>
    by_cases ends : ∃ steps outcome,
        p.analysis.Ends steps (p.analysis.entered p.entry) [0] 0 outcome
    · obtain ⟨steps, e | done, ends⟩ := ends
      · exact .inl ⟨_, .failed made ends⟩
      · exact .inl ⟨_, .finished made ends⟩
    · exact .inr ⟨p, made, fun steps outcome here => ends ⟨steps, outcome, here⟩⟩

theorem Recomputes.exists_finish (run : t.Recomputes c (.ok c')) : ∃ p done,
    Reframe.prepare t.hierarchy t.owner t.method c = .ok p ∧ c' = p.finish t.withFrames done c := by
  cases run with
  | finished made ends => exact ⟨_, _, made, rfl⟩

theorem Recomputes.unique (run : t.Recomputes c o) (run' : t.Recomputes c o') : o = o' := by
  cases run with
  | refused fails =>
    cases run' with
    | refused fails' =>
      cases fails.symm.trans fails'
      rfl
    | failed made _ => cases fails.symm.trans made
    | finished made _ => cases fails.symm.trans made
  | failed made ends =>
    cases run' with
    | refused fails => cases made.symm.trans fails
    | failed made' ends' =>
      cases made.symm.trans made'
      cases ends.unique ends'
      rfl
    | finished made' ends' =>
      cases made.symm.trans made'
      cases ends.unique ends'
  | finished made ends =>
    cases run' with
    | refused fails => cases made.symm.trans fails
    | failed made' ends' =>
      cases made.symm.trans made'
      cases ends.unique ends'
    | finished made' ends' =>
      cases made.symm.trans made'
      cases ends.unique ends'
      rfl

end BodyTarget

structure Recomputed (t : BodyTarget) (c₀ c c' : Code) (taken k : Nat) : Prop where
  tally : Tally c₀ c' (taken + k)
  shielded : Shielded (boundLabels c₀.insns) c'.insns
  cheaper : loose c₀ c' (taken + k) ≤ loose c₀ c taken
  executed : executedIn c'.insns = executedIn c.insns
  sites : t.withFrames = false → newSites c'.insns = newSites c.insns ∧ k ≤ newSites c.insns
  /-- Each of the labels stands where none was, or has the number of an old one. -/
  places : t.withFrames = true → ∃ new old, k = new + old ∧
    loose c₀ c' (taken + k) + old ≤ loose c₀ c taken ∧
    (newPlaces (boundLabels c₀.insns) c.insns).ncard + new ≤
      (newPlaces (boundLabels c₀.insns) c'.insns).ncard

theorem Recomputed.of_frames (h : Tally c₀ c taken)
    (shielded : Shielded (boundLabels c₀.insns) c.insns) (frames : t.withFrames = true)
    (few : executedIn c.insns + 1 < 4294967296)
    (room : taken + (executedIn c.insns + 1 -
      (newPlaces (boundLabels c₀.insns) c.insns).ncard) ≤ 4294967296)
    (run : t.Recomputes c (.ok c')) : ∃ k, Recomputed t c₀ c c' taken k := by
  have executed : executedIn c.insns = c.executed.length := List.countP_eq_length_filter
  obtain ⟨p, done, made, rfl⟩ := run.exists_finish
  have same := Code.countP_finish p t.withFrames done c
  rw [frames] at same ⊢
  obtain ⟨s, live, count, counted, next, insns⟩ := counted_finish (by omega) made done
  obtain ⟨more, inside⟩ := h.newPlaces_bind counted insns
  have room : taken + s.pending.size ≤ 4294967296 := by omega
  have cost := h.loose_bind counted insns room
  have parts := List.length_eq_countP_add_countP
    (fun l => decide (l ∉ boundLabels c₀.insns)) (l := s.newLabels c.executed.length)
  simp only [decide_eq_true_eq, not_not] at parts
  rw [counted.length_newLabels] at parts
  refine ⟨_, h.bind counted insns next room, ?_, by omega, same, fun plain => ?_,
    fun _ => ⟨_, _, parts, cost, more⟩⟩
  · exact insns ▸ (shielded.buryDead live count 0).bindPending s.pending 0
  · simp [frames] at plain

theorem Recomputed.of_plain (h : Tally c₀ c taken)
    (shielded : Shielded (boundLabels c₀.insns) c.insns) (plain : t.withFrames = false)
    (room : taken + newSites c.insns ≤ 4294967296)
    (run : t.Recomputes c (.ok c')) : ∃ k, Recomputed t c₀ c c' taken k := by
  obtain ⟨p, done, made, rfl⟩ := run.exists_finish
  rw [plain]
  obtain ⟨insns, k, few, next⟩ := Reframe.next_finish made done
  have room : taken + k ≤ 4294967296 := by omega
  have given : spare (boundLabels c₀.insns) c₀.nextLabel (taken + k) + 0 ≤
      spare (boundLabels c₀.insns) c₀.nextLabel taken :=
    spare_add room .nil (List.nil_subset _)
  refine ⟨k, h.take room ?_ .nil (List.nil_subset _) next, insns ▸ shielded, ?_, by rw [insns],
    fun _ => ⟨by rw [insns], few⟩, fun frames => ?_⟩
  · rw [insns, List.append_nil]
  · rw [loose, loose, insns]
    omega
  · simp [plain] at frames

theorem Settling.next_widened {k far : Nat} (h : Settling t c₀ c taken)
    (step : Widened c₀ c c' taken k far) (none : k = 0)
    (shaped : ∀ i ∈ c'.insns, i.isBranch = true → i.Shaped) :
    Settling t c₀ c' (taken + k) where
  toTally := step.tally
  shaped := shaped
  shielded := step.shielded
  few := by
    have := h.few
    have := step.cost
    omega
  grown := by
    have := h.grown
    have := step.cost
    have := step.executed
    omega
  sites plain := step.sites.trans (h.sites plain)
  supply := by
    have supply := h.supply
    have cost := step.cost
    have executed := step.executed
    have places := step.places
    unfold demand at supply ⊢
    split at supply
    · rename_i frames
      rw [if_pos frames]
      omega
    · rename_i frames
      rw [if_neg frames]
      have product : loose c₀ c' (taken + k) * (newSites c₀.insns + 1) ≤
          loose c₀ c taken * (newSites c₀.insns + 1) := Nat.mul_le_mul_right _ (by omega)
      omega

theorem Settling.next_recomputed {w : Code} {k far : Nat} (h : Settling t c₀ c taken)
    (enough : t.labelsTaken c₀ ≤ 4294967296) (some_far : 0 < far)
    (step : Widened c₀ c w taken k far) (run : t.Recomputes w (.ok c'))
    (shaped : ∀ i ∈ c'.insns, i.isBranch = true → i.Shaped) :
    ∃ taken', Settling t c₀ c' taken' ∧ loose c₀ c' taken' < loose c₀ c taken := by
  have supply := h.supply
  have few := h.few
  have grown := h.grown
  have turned := step.turned
  have cost := step.cost
  have executed := step.executed
  have places := step.places
  have inside (insns : List Insn) :
      (newPlaces (boundLabels c₀.insns) insns).ncard ≤ executedIn insns + 1 :=
    ncard_le_of_inside fun i => le_of_mem_newPlaces
  have before := inside c.insns
  have behind := inside c'.insns
  cases frames : t.withFrames with
  | true =>
    -- a label is put in a place that has none, or has the number of an old one
    simp only [demand, BodyTarget.labelsTaken, frames, if_true] at supply enough
    obtain ⟨k', again⟩ := Recomputed.of_frames step.tally step.shielded frames (by omega)
      (by omega) run
    obtain ⟨new, old, split, cost', more⟩ := again.places frames
    have kept := again.executed
    refine ⟨_, ⟨again.tally, shaped, again.shielded, by omega, by omega, by simp [frames], ?_⟩,
      by omega⟩
    simp only [demand, BodyTarget.labelsTaken, frames, if_true]
    omega
  | false =>
    -- the labels of the new objects are taken anew in every round
    simp only [demand, BodyTarget.labelsTaken, frames, Bool.false_eq_true, if_false]
      at supply enough
    have sites := h.sites frames
    have product : (loose c₀ w (taken + k) + far) * (newSites c₀.insns + 1) ≤
        loose c₀ c taken * (newSites c₀.insns + 1) := Nat.mul_le_mul_right _ cost
    have least : far + newSites c₀.insns ≤ far * (newSites c₀.insns + 1) := by
      have := Nat.le_mul_of_pos_left (newSites c₀.insns) some_far
      rw [Nat.mul_succ]
      omega
    rw [Nat.add_mul] at product
    have same := step.sites
    obtain ⟨k', again⟩ := Recomputed.of_plain step.tally step.shielded frames (by omega) run
    obtain ⟨kept, taken'⟩ := again.sites frames
    have cheaper := again.cheaper
    have executed' := again.executed
    refine ⟨_, ⟨again.tally, shaped, again.shielded, by omega, by omega, fun _ => by omega, ?_⟩,
      by omega⟩
    simp only [demand, BodyTarget.labelsTaken, frames, Bool.false_eq_true, if_false]
    have lower := Nat.mul_le_mul_right (newSites c₀.insns + 1) cheaper
    omega

/-! The loop -/

def Widens (c : Code) (s : Tables) (c' : Code) (split : Bool) (u : Tables) : Prop :=
  ∃ l far, Layout.ofInsns c.insns s = (.ok l, u) ∧ l.farDistances = .ok far ∧
    far.all Option.isNone = false ∧ c.widen far = .ok (c', split)

theorem Widens.unique {s u u' : Tables} {w w' : Code} {split split' : Bool}
    (h : Widens c s w split u) (h' : Widens c s w' split' u') :
    w = w' ∧ split = split' ∧ u = u' := by
  obtain ⟨l, far, laid, found, _, run⟩ := h
  obtain ⟨l', far', laid', found', _, run'⟩ := h'
  cases laid.symm.trans laid'
  cases found.symm.trans found'
  cases run.symm.trans run'
  exact ⟨rfl, rfl, rfl⟩

/-- One round: a branch is far, the far ones are widened, and the frames are computed anew if one of
them was turned around. -/
inductive Round (t : BodyTarget) : Code × Tables → Code × Tables → Prop
  | widened {c c' : Code} {s u : Tables} (widens : Widens c s c' false u) :
      Round t (c, s) (c', u)
  | recomputed {c w c' : Code} {s u : Tables} (widens : Widens c s w true u)
      (frames : t.Recomputes w (.ok c')) : Round t (c, s) (c', u)

/-- The rounds, which nothing limits in number, end in the `n`-th one with an answer: the body laid
out with every branch in reach, or an error of interning or of computing frames. -/
inductive Ends (t : BodyTarget) :
    Nat → Code × Tables → Except WriteError (Code × Layout) × Tables → Prop
  | done {c : Code} {s u : Tables} {l : Layout} (laid : Layout.ofInsns c.insns s = (.ok l, u))
      (reaches : l.Reaches) : Ends t 0 (c, s) (.ok (c, l), u)
  | interning {c : Code} {s u : Tables} {e : WriteError}
      (fails : Layout.ofInsns c.insns s = (.error e, u)) : Ends t 0 (c, s) (.error e, u)
  | recomputing {c w : Code} {s u : Tables} {e : WriteError} (widens : Widens c s w true u)
      (fails : t.Recomputes w (.error e)) : Ends t 1 (c, s) (.error e, u)
  | round {n : Nat} {r r' : Code × Tables} {o : Except WriteError (Code × Layout) × Tables}
      (first : Round t r r') (rest : Ends t n r' o) : Ends t (n + 1) r o

/-- In the `n`-th round frames are computed for a body whose work list never ends. -/
inductive Stalls (t : BodyTarget) : Nat → Code × Tables → Prop
  | here {c w : Code} {s u : Tables} (widens : Widens c s w true u) (endless : t.Endless w) :
      Stalls t 1 (c, s)
  | round {n : Nat} {r r' : Code × Tables} (first : Round t r r') (rest : Stalls t n r') :
      Stalls t (n + 1) r

theorem Round.widens {r r' : Code × Tables} (first : Round t r r') :
    ∃ w split u, Widens r.1 r.2 w split u := by
  cases first with
  | widened widens => exact ⟨_, _, _, widens⟩
  | recomputed widens _ => exact ⟨_, _, _, widens⟩

theorem Round.unique {r r' r'' : Code × Tables} (first : Round t r r') (second : Round t r r'') :
    r' = r'' := by
  cases first with
  | widened widens =>
    cases second with
    | widened widens' =>
      obtain ⟨rfl, _, rfl⟩ := widens.unique widens'
      rfl
    | recomputed widens' _ => cases (widens.unique widens').2.1
  | recomputed widens frames =>
    cases second with
    | widened widens' => cases (widens.unique widens').2.1
    | recomputed widens' frames' =>
      obtain ⟨rfl, _, rfl⟩ := widens.unique widens'
      cases frames.unique frames'
      rfl

theorem Ends.reaches {n : Nat} {r : Code × Tables} {u : Tables}
    (ends : Ends t n r (.ok (c', l), u)) : Layout.Laid c'.insns l ∧ l.Reaches := by
  generalize same : ((.ok (c', l), u) : Except WriteError (Code × Layout) × Tables) = o at ends
  induction ends with
  | done laid reaches =>
    cases same
    exact ⟨Layout.answers_ofInsns _ _ _ _ laid, reaches⟩
  | interning => cases same
  | recomputing => cases same
  | round first rest ih => exact ih same

theorem unbound_of_farDistances {l : Layout} {e : WriteError} (laid : Layout.Laid c.insns l)
    (fails : l.farDistances = .error e) :
    ∃ x, (∃ i ∈ c.insns, i.shortTarget? = some x) ∧ ¬ c.Binds x ∧ e = .unboundLabel x := by
  obtain ⟨p, mem, fails⟩ := exists_error_of_mapM fails
  have listed : p.insn ∈ c.insns := laid.insns ▸ List.mem_map_of_mem mem
  unfold Layout.farDistance at fails
  split at fails
  · rename_i op x jump
    split at fails
    · cases fails
    · rename_i short
      cases found : l.positions.find? x with
      | none =>
        rw [Positions.place, found] at fails
        cases fails
        refine ⟨x, ⟨_, listed, by simp [jump, Insn.shortTarget?, short]⟩, fun bound => ?_, rfl⟩
        obtain ⟨n, place⟩ := laid.find?_of_mem bound
        simp [found] at place
      | some n =>
        rw [Positions.place, found] at fails
        cases fails
  · cases fails

theorem Settling.farDistances (h : Settling t c₀ c taken) (laid : Layout.Laid c.insns l) :
    ∃ far, l.farDistances = .ok far := by
  cases found : l.farDistances with
  | ok far => exact ⟨far, rfl⟩
  | error e =>
    obtain ⟨x, ⟨i, mem, target⟩, free, _⟩ := unbound_of_farDistances laid found
    by_cases known : x ∈ boundLabels c₀.insns
    · exact absurd (h.binds known) free
    · exact absurd (h.shielded.binds mem target known) free

theorem Settling.ends (h : Settling t c₀ c taken) (enough : t.labelsTaken c₀ ≤ 4294967296)
    (s : Tables) : ∃ n ≤ loose c₀ c taken, (∃ o, Ends t n (c, s) o) ∨ Stalls t n (c, s) := by
  induction bound : loose c₀ c taken using Nat.strong_induction_on generalizing c taken s with
  | _ cost ih =>
    rcases laying : Layout.ofInsns c.insns s with ⟨e | l, u⟩
    · exact ⟨0, Nat.zero_le _, .inl ⟨_, .interning laying⟩⟩
    · have laid := Layout.answers_ofInsns c.insns _ _ _ laying
      obtain ⟨far, found⟩ := h.farDistances laid
      cases none : far.all Option.isNone with
      | true =>
        have reaches := Layout.reaches_iff.2 ⟨far, found, none⟩
        exact ⟨0, Nat.zero_le _, .inl ⟨_, .done laying reaches⟩⟩
      | false =>
        -- only branches to labels from before are far, and those can be turned around
        have farFrom := Layout.farFrom_of_shielded laid found h.shielded fun x => h.once
        have turns : (c.insns.zip far).all Widening.turns = true :=
          List.all_eq_true.2 fun s mem =>
            Widening.turns_of_shaped (farFrom s mem) (h.shaped _ (List.of_mem_zip mem).1)
        obtain ⟨w, split, run⟩ : ∃ w split, c.widen far = .ok (w, split) :=
          ⟨_, _, Code.widen_eq_ok_iff.2 ⟨turns, rfl, rfl⟩⟩
        have widens : Widens c s w split u := ⟨l, far, laying, found, none, run⟩
        have shaped := Code.forall_widen Insn.lasting_branch h.shaped run
        obtain ⟨k, count, some_far, unturned, step⟩ := h.widened enough laid found none run
        have cheaper := step.cost
        -- what comes behind a round that goes on
        have behind {c' : Code} {taken' : Nat} (first : Round t (c, s) (c', u))
            (next : Settling t c₀ c' taken') (less : loose c₀ c' taken' < loose c₀ c taken) :
            ∃ n ≤ cost, (∃ o, Ends t n (c, s) o) ∨ Stalls t n (c, s) := by
          obtain ⟨n, few, ending⟩ := ih _ (bound ▸ less) next u rfl
          refine ⟨n + 1, by omega, ending.imp ?_ (.round first)⟩
          rintro ⟨o, rest⟩
          exact ⟨o, .round first rest⟩
        cases split with
        | false =>
          exact behind (.widened widens) (h.next_widened step (unturned rfl) shaped) (by omega)
        | true =>
          rcases t.recomputes_or_endless w with ⟨e | c', frames⟩ | endless
          · exact ⟨1, by omega, .inl ⟨_, .recomputing widens frames⟩⟩
          · obtain ⟨p, done, _, finished⟩ := frames.exists_finish
            obtain ⟨taken', next, less⟩ := h.next_recomputed enough some_far step frames
              (finished ▸ forall_finish Insn.lasting_branch p t.withFrames done shaped)
            exact behind (.recomputed widens frames) next less
          · exact ⟨1, by omega, .inr (.here widens endless)⟩

end ClassFile

namespace Layout

variable {l : Layout}

/-- Every branch that has two bytes for its distance needs no more. -/
def Fits (l : Layout) : Prop :=
  ∀ p ∈ l.placed, ∀ op x, p.insn = .jump op x → op.isWideJump = false →
    ∃ place, l.positions.find? x = some place ∧
      -32768 ≤ (place : Int) - p.offset ∧ (place : Int) - p.offset ≤ 32767

theorem Reaches.fits (reaches : l.Reaches) : l.Fits := by
  intro p mem op x jump short
  have near := reaches p mem
  cases found : l.positions.find? x with
  | none =>
    simp only [farDistance, jump, short, Positions.place, found] at near
    cases near
  | some place =>
    have fits := fits_of_near jump (by simp [short]) near found
    simp only [fitsInt16, Bool.and_eq_true, decide_eq_true_eq] at fits
    exact ⟨place, rfl, fits⟩

end Layout

namespace ClassFile

variable {t : BodyTarget} {c : Code}

end ClassFile

end ClassWeave
