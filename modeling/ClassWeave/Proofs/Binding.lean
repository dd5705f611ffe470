import Mathlib.Data.List.Nodup
import Mathlib.Data.List.Perm.Basic
import Mathlib.Tactic.Common
import ClassWeave.Layout.Widen
import ClassWeave.Proofs.Analysis.Burial
import ClassWeave.Proofs.Analysis.Sites
import ClassWeave.Proofs.Body.Rewritten
import ClassWeave.Proofs.Widening

/-!
# Labels that are named are bound

A body is closed if it binds every label that one of its parts names: branches, exception ranges,
local variables, frames, and the frames that are kept as hints. Its labels are apart if none is
bound twice and all lie below the number from which new ones are taken. Each operation on a body
keeps both, the second as long as the numbers of labels do not run out.
-/

set_option autoImplicit false

namespace ClassWeave

def Insn.bound? : Insn → Option Label
  | .label l => some l
  | _ => none

/-- The labels that are bound in a list of instructions, in order. -/
def boundLabels (insns : List Insn) : List Label := insns.filterMap Insn.bound?

section Lists

variable {l : Label} {insns : List Insn}

theorem mem_boundLabels : l ∈ boundLabels insns ↔ Insn.label l ∈ insns := by
  rw [boundLabels, List.mem_filterMap]
  constructor
  · rintro ⟨insn, mem, same⟩
    cases insn with
    | label x =>
      cases same
      exact mem
    | _ => cases same
  · exact fun mem => ⟨_, mem, rfl⟩

@[simp] theorem boundLabels_nil : boundLabels [] = [] := rfl

@[simp] theorem boundLabels_append (insns more : List Insn) :
    boundLabels (insns ++ more) = boundLabels insns ++ boundLabels more :=
  List.filterMap_append

theorem boundLabels_cons (insn : Insn) (rest : List Insn) :
    boundLabels (insn :: rest) = insn.bound?.toList ++ boundLabels rest := by
  rw [boundLabels, List.filterMap_cons]
  cases insn.bound? <;> rfl

theorem bound?_of_executed {insn : Insn} (runs : insn.isExecuted = true) : insn.bound? = none := by
  cases insn with
  | label x => cases runs
  | _ => rfl

theorem boundLabels_buryDead (live : Nat → Bool) (count n : Nat) (insns : List Insn) :
    boundLabels (Reframe.buryDead live count n insns []) = boundLabels insns := by
  induction insns generalizing n with
  | nil => rfl
  | cons insn rest ih =>
    have same : (buried live count n insn).bound? = insn.bound? := by
      cases runs : insn.isExecuted with
      | true =>
        rw [bound?_of_executed runs,
          bound?_of_executed ((isExecuted_buried live count n insn).trans runs)]
      | false => rw [buried, if_pos (.inl runs)]
    rw [buryDead_cons, boundLabels_cons, boundLabels_cons, ih, same]

theorem boundLabels_bindPending (pending : Std.TreeMap Nat Label) (n : Nat) (insns : List Insn) :
    (boundLabels (Labelling.bindPending pending n insns [])).Perm
      (boundLabels insns ++
        (List.range' n (insns.countP Insn.isExecuted + 1)).filterMap fun i => pending[i]?) := by
  have one : ∀ k : Nat, boundLabels (pendingLabel pending k) = (pending[k]?).toList := by
    intro k
    unfold pendingLabel
    cases pending[k]? <;> rfl
  induction insns generalizing n with
  | nil =>
    rw [bindPending_nil, one]
    show List.Perm _ ([n].filterMap fun i => pending[i]?)
    rw [List.filterMap_cons]
    cases pending[n]? <;> exact .refl _
  | cons insn rest ih =>
    have behind := ih (insn.next n)
    rw [bindPending_cons, boundLabels_append, boundLabels_cons, boundLabels_cons, List.countP_cons]
    unfold Insn.next at behind
    cases runs : insn.isExecuted with
    | true =>
      rw [runs] at behind
      simp only [if_true] at behind ⊢
      rw [bound?_of_executed runs, one, Insn.next, runs, if_pos rfl, List.range'_succ,
        List.filterMap_cons]
      cases pending[n]? with
      | none => exact behind
      | some x => exact (behind.cons x).trans List.perm_middle.symm
    | false =>
      rw [runs] at behind
      simp only [Bool.false_eq_true, if_false] at behind ⊢
      rw [Insn.next, runs, if_neg Bool.false_ne_true]
      simp only [boundLabels_nil, List.nil_append, Nat.add_zero, List.append_assoc]
      exact behind.append_left _

theorem targets_buryDead {live : Nat → Bool} {count n : Nat} {i : Insn}
    (mem : i ∈ Reframe.buryDead live count n insns []) (named : l ∈ i.targets) :
    ∃ j ∈ insns, l ∈ j.targets := by
  induction insns generalizing n with
  | nil => cases mem
  | cons insn rest ih =>
    rw [buryDead_cons] at mem
    rcases List.mem_cons.1 mem with rfl | mem
    · unfold buried at named
      split at named
      · exact ⟨insn, List.mem_cons_self .., named⟩
      · split at named
        · cases named
        · cases named
    · obtain ⟨j, mem, named⟩ := ih mem
      exact ⟨j, List.mem_cons_of_mem insn mem, named⟩

theorem targets_bindPending {pending : Std.TreeMap Nat Label} {n : Nat} {i : Insn}
    (mem : i ∈ Labelling.bindPending pending n insns []) (named : l ∈ i.targets) : i ∈ insns := by
  have none : ∀ k, i ∉ pendingLabel pending k := by
    intro k mem
    obtain ⟨x, _, rfl⟩ := Option.map_eq_some_iff.1 (Option.mem_toList.1 mem)
    cases named
  induction insns generalizing n with
  | nil =>
    rw [bindPending_nil] at mem
    exact absurd mem (none n)
  | cons insn rest ih =>
    rw [bindPending_cons] at mem
    rcases List.mem_append.1 mem with mem | mem
    · split at mem
      · exact absurd mem (none n)
      · cases mem
    · rcases List.mem_cons.1 mem with rfl | mem
      · exact List.mem_cons_self ..
      · exact List.mem_cons_of_mem insn (ih mem)

end Lists

namespace Code

variable {c c' : Code} {l : Label}

def Binds (c : Code) (l : Label) : Prop := Insn.label l ∈ c.insns

instance : Decidable (c.Binds l) := inferInstanceAs (Decidable (_ ∈ _))

structure BindsFrame (c : Code) (f : LabelledFrame) : Prop where
  place : c.Binds f.1
  sites : ∀ l ∈ ClassFile.uninitSites f.2, c.Binds l

/-- Every label that some part of the body names is bound in it. -/
structure Closed (c : Code) : Prop where
  targets : ∀ i ∈ c.insns, ∀ l ∈ i.targets, c.Binds l
  handlers : ∀ h ∈ c.handlers, c.Binds h.start ∧ c.Binds h.finish ∧ c.Binds h.target
  locals : ∀ v ∈ c.locals, c.Binds v.start ∧ c.Binds v.finish
  frames : ∀ f ∈ c.frames.getD [], c.BindsFrame f
  hints : ∀ f ∈ c.hints, c.BindsFrame f

/-- No label is bound twice, and those that are bound lie below the next one. -/
structure Apart (c : Code) : Prop where
  once : (boundLabels c.insns).Nodup
  below : ∀ l, c.Binds l → l.number < c.nextLabel

/-- The labels that the body names besides binding them, those of the hints included. -/
def named (c : Code) : List Label :=
  c.mentions ++ c.hints.flatMap fun f => f.1 :: ClassFile.uninitSites f.2

theorem Closed.binds (h : c.Closed) (mem : l ∈ c.named) : c.Binds l := by
  have frame : ∀ f : LabelledFrame, c.BindsFrame f → l ∈ f.1 :: ClassFile.uninitSites f.2 →
      c.Binds l := by
    intro f bound mem
    rcases List.mem_cons.1 mem with rfl | mem
    · exact bound.place
    · exact bound.sites l mem
  simp only [named, mentions, List.mem_append, List.mem_flatMap] at mem
  rcases mem with (((⟨i, mem, named⟩ | ⟨e, mem, named⟩) | ⟨f, mem, named⟩) | ⟨v, mem, named⟩) |
    ⟨f, mem, named⟩
  · exact h.targets i mem l named
  · obtain ⟨start, finish, target⟩ := h.handlers e mem
    simp only [List.mem_cons, List.not_mem_nil, or_false] at named
    rcases named with rfl | rfl | rfl
    · exact start
    · exact finish
    · exact target
  · exact frame f (h.frames f mem) named
  · obtain ⟨start, finish⟩ := h.locals v mem
    simp only [List.mem_cons, List.not_mem_nil, or_false] at named
    rcases named with rfl | rfl
    · exact start
    · exact finish
  · exact frame f (h.hints f mem) named

theorem BindsFrame.mono {f : LabelledFrame} (h : c.BindsFrame f)
    (binds : ∀ l, c.Binds l → c'.Binds l) : c'.BindsFrame f :=
  ⟨binds _ h.place, fun l mem => binds l (h.sites l mem)⟩

theorem Closed.withInsns (h : c.Closed) {insns : List Insn} {nextLabel : UInt32}
    (binds : ∀ l, c.Binds l → Insn.label l ∈ insns)
    (targets : ∀ i ∈ insns, ∀ l ∈ i.targets, Insn.label l ∈ insns) :
    ({ c with insns := insns, nextLabel := nextLabel } : Code).Closed where
  targets := targets
  handlers e mem := (h.handlers e mem).imp (binds _) (.imp (binds _) (binds _))
  locals v mem := (h.locals v mem).imp (binds _) (binds _)
  frames f mem := (h.frames f mem).mono binds
  hints f mem := (h.hints f mem).mono binds

theorem Closed.markStale (h : c.Closed) : c.markStale.Closed := by
  have stays : ∀ (frames : Option (List LabelledFrame)) (hints : List LabelledFrame),
      (∀ f ∈ frames.getD [], c.BindsFrame f) → (∀ f ∈ hints, c.BindsFrame f) →
      ({ c with frames := frames, hints := hints } : Code).Closed := fun _ _ frames hints =>
    ⟨h.targets, h.handlers, h.locals, fun f mem => (frames f mem).mono fun _ bound => bound,
      fun f mem => (hints f mem).mono fun _ bound => bound⟩
  have noFrames : ∀ f ∈ (none : Option (List LabelledFrame)).getD [], c.BindsFrame f := nofun
  unfold Code.markStale
  split
  · exact h
  · exact stays none c.hints noFrames h.hints
  · rename_i frames _ known
    refine stays none frames noFrames fun f mem => h.frames f ?_
    rw [known]
    exact mem

@[simp] theorem nextLabel_markStale (c : Code) : c.markStale.nextLabel = c.nextLabel := by
  unfold Code.markStale
  split <;> rfl

theorem binds_markStale : c.markStale.Binds l ↔ c.Binds l := by
  rw [Binds, Binds, insns_markStale]

theorem Apart.markStale (h : c.Apart) : c.markStale.Apart := by
  refine ⟨?_, fun l bound => ?_⟩
  · rw [insns_markStale]
    exact h.once
  · rw [nextLabel_markStale]
    exact h.below l (binds_markStale.1 bound)

theorem Closed.insert (h : c.Closed) {added insns : List Insn}
    (merged : insns.Perm (c.insns ++ added))
    (fits : ∀ i ∈ added, ∀ l ∈ i.targets, c.Binds l ∨ l ∈ boundLabels added) :
    ({ c with insns := insns } : Code).Closed := by
  have mem : ∀ i, i ∈ insns ↔ i ∈ c.insns ∨ i ∈ added := fun i =>
    merged.mem_iff.trans List.mem_append
  refine h.withInsns (fun l bound => (mem _).2 (.inl bound)) fun i found l named => ?_
  rcases (mem i).1 found with old | new
  · exact (mem _).2 (.inl (h.targets i old l named))
  · exact (mem _).2 ((fits i new l named).imp_right mem_boundLabels.1)

theorem Apart.insert (h : c.Apart) {added insns : List Insn}
    (merged : insns.Perm (c.insns ++ added)) (once : (boundLabels added).Nodup)
    (unbound : ∀ l ∈ boundLabels added, ¬ c.Binds l ∧ l.number < c.nextLabel) :
    ({ c with insns := insns } : Code).Apart := by
  have bound : (boundLabels insns).Perm (boundLabels c.insns ++ boundLabels added) := by
    rw [← boundLabels_append]
    exact merged.filterMap _
  refine ⟨bound.nodup_iff.2 (List.nodup_append.2 ⟨h.once, once, ?_⟩), fun l stands => ?_⟩
  · rintro l old _ new rfl
    exact (unbound l new).1 (mem_boundLabels.1 old)
  · rcases List.mem_append.1 (bound.mem_iff.1 (mem_boundLabels.2 stands)) with old | new
    · exact h.below l (mem_boundLabels.1 old)
    · exact (unbound l new).2

/-- The body binds the labels of `c` and others, which were taken one after the other. -/
structure Gains (c c' : Code) (fresh : List Label) : Prop where
  bound : (boundLabels c'.insns).Perm (boundLabels c.insns ++ fresh)
  once : fresh.Nodup
  range : ∀ l ∈ fresh, c.nextLabel.toNat ≤ l.number.toNat ∧ l.number.toNat < c'.nextLabel.toNat
  next : c.nextLabel.toNat ≤ c'.nextLabel.toNat

theorem Gains.binds {fresh : List Label} (h : c.Gains c' fresh) :
    c'.Binds l ↔ c.Binds l ∨ l ∈ fresh := by
  rw [Binds, Binds, ← mem_boundLabels, ← mem_boundLabels, h.bound.mem_iff, List.mem_append]

theorem Apart.gains (h : c.Apart) {fresh : List Label} (gains : c.Gains c' fresh) : c'.Apart := by
  refine ⟨gains.bound.nodup_iff.2 (List.nodup_append.2 ⟨h.once, gains.once, ?_⟩),
    fun l stands => ?_⟩
  · rintro l old _ new rfl
    have low := UInt32.lt_iff_toNat_lt.1 (h.below l (mem_boundLabels.1 old))
    have := (gains.range l new).1
    omega
  · rw [UInt32.lt_iff_toNat_lt]
    rcases gains.binds.1 stands with old | new
    · exact Nat.lt_of_lt_of_le (UInt32.lt_iff_toNat_lt.1 (h.below l old)) gains.next
    · exact (gains.range l new).2

def HasRoom (c : Code) (n : Nat) : Prop := c.nextLabel.toNat + n < 4294967296

instance (n : Nat) : Decidable (c.HasRoom n) := inferInstanceAs (Decidable (_ < _))

theorem toNat_nextLabel_newLabel (room : c.HasRoom 1) :
    c.newLabel.2.nextLabel.toNat = c.nextLabel.toNat + 1 := by
  show (c.nextLabel + 1).toNat = _
  rw [UInt32.toNat_add, UInt32.toNat_one, Nat.mod_eq_of_lt room]

theorem Apart.not_binds (h : c.Apart) : ¬ c.Binds c.newLabel.1 := fun bound =>
  UInt32.lt_irrefl _ (h.below _ bound)

end Code

def freshLabels (first : UInt32) (k : Nat) : List Label :=
  (List.range k).map fun j => ⟨first + UInt32.ofNat j⟩

theorem nodup_freshLabels {first : UInt32} {k : Nat} (room : k ≤ 4294967296) :
    (freshLabels first k).Nodup := by
  refine List.Nodup.map_on (fun i hi j hj same => ?_) List.nodup_range
  have low := List.mem_range.1 hi
  have low' := List.mem_range.1 hj
  exact eq_of_add_ofNat (by omega) (by omega) (congrArg Label.number same)

theorem range_freshLabels {first : UInt32} {k : Nat} (room : first.toNat + k ≤ 4294967296)
    {l : Label} (mem : l ∈ freshLabels first k) :
    first.toNat ≤ l.number.toNat ∧ l.number.toNat < first.toNat + k := by
  obtain ⟨j, inside, rfl⟩ := List.mem_map.1 mem
  have low := List.mem_range.1 inside
  dsimp only
  rw [toNat_fresh (by omega)]
  omega

theorem freshLabels_add (next : UInt32) (j k : Nat) :
    freshLabels next (j + k) = freshLabels next j ++ freshLabels (next + UInt32.ofNat j) k := by
  rw [freshLabels, freshLabels, freshLabels, List.range_add, List.map_append, List.map_map]
  congr 1
  refine List.map_congr_left fun i _ => congrArg Label.mk ?_
  rw [UInt32.ofNat_add, UInt32.add_assoc]

theorem freshLabels_succ (next : UInt32) (k : Nat) :
    freshLabels next (k + 1) = ⟨next⟩ :: freshLabels (next + 1) k := by
  have one : freshLabels next 1 = [⟨next⟩] :=
    congrArg (fun number => [Label.mk number]) (UInt32.add_zero next)
  rw [Nat.add_comm, freshLabels_add, one]
  rfl

namespace Widening

variable {steps : List (Insn × Option Int)} {next : UInt32}

theorem bound?_wide (s : Insn × Option Int) : (wide s).bound? = s.1.bound? := by
  unfold wide
  split <;> rfl

theorem boundLabels_part (skip : Label) (s : Insn × Option Int) :
    boundLabels (part skip s) = boundLabels [s.1] ++ if splits s then [skip] else [] := by
  cases split : splits s with
  | true =>
    obtain ⟨op, target, d, rfl, noGoto, noJsr⟩ := splits_iff.1 split
    rw [part_of_splits noGoto noJsr]
    rfl
  | false =>
    rw [part_of_keeps split, boundLabels_cons, boundLabels_cons, bound?_wide]
    simp

theorem boundLabels_insnsFrom (next : UInt32) (steps : List (Insn × Option Int)) :
    (boundLabels (insnsFrom next steps)).Perm
      (boundLabels (steps.map Prod.fst) ++ freshLabels next (steps.countP splits)) := by
  induction steps generalizing next with
  | nil => exact .refl _
  | cons s rest ih =>
    have listed : boundLabels ((s :: rest).map Prod.fst) =
        boundLabels [s.1] ++ boundLabels (rest.map Prod.fst) := boundLabels_append [s.1] _
    rw [insnsFrom_cons, boundLabels_append, boundLabels_part, listed, List.append_assoc,
      List.append_assoc]
    refine .append_left _ ?_
    have behind := ih (after next s)
    rw [List.countP_cons]
    unfold after at behind ⊢
    split
    · rename_i split
      rw [if_pos split] at behind
      rw [freshLabels_succ]
      exact (behind.cons _).trans List.perm_middle.symm
    · rename_i keeps
      rw [if_neg keeps] at behind
      exact behind

theorem targets_insnsFrom {insn : Insn} (mem : insn ∈ insnsFrom next steps) {l : Label}
    (named : l ∈ insn.targets) :
    (∃ s ∈ steps, l ∈ s.1.targets) ∨ Insn.label l ∈ insnsFrom next steps := by
  obtain ⟨s, old, skip, inside, sub⟩ := mem_insnsFrom mem
  cases split : splits s with
  | true =>
    obtain ⟨op, target, d, rfl, noGoto, noJsr⟩ := splits_iff.1 split
    rw [part_of_splits noGoto noJsr] at inside sub
    simp only [List.mem_cons, List.not_mem_nil, or_false] at inside
    rcases inside with rfl | rfl | rfl
    · rw [List.mem_singleton.1 named]
      exact .inr (sub (by simp))
    · exact .inl ⟨_, old, named⟩
    · cases named
  | false =>
    rw [part_of_keeps split, List.mem_singleton] at inside
    rw [inside, targets_wide] at named
    exact .inl ⟨s, old, named⟩

end Widening

namespace Code

variable {c c' : Code}

theorem Closed.widen (h : c.Closed) {far : List (Option Int)}
    (whole : far.length = c.insns.length) {split : Bool} (run : c.widen far = .ok (c', split)) :
    c'.Closed := by
  obtain ⟨_, rfl, _⟩ := widen_eq_ok_iff.1 run
  have bound := Widening.boundLabels_insnsFrom c.nextLabel (c.insns.zip far)
  rw [List.map_fst_zip (Nat.le_of_eq whole.symm)] at bound
  have binds : ∀ l, c.Binds l → Insn.label l ∈ Widening.insnsFrom c.nextLabel (c.insns.zip far) :=
    fun l stands => mem_boundLabels.1 (bound.mem_iff.2
      (List.mem_append_left _ (mem_boundLabels.2 stands)))
  refine h.withInsns binds fun i mem l named => ?_
  rcases Widening.targets_insnsFrom mem named with ⟨s, old, named⟩ | new
  · exact binds l (h.targets s.1 (List.of_mem_zip old).1 l named)
  · exact new

theorem gains_widen (room : c.HasRoom c.executed.length) {far : List (Option Int)}
    (whole : far.length = c.insns.length) {split : Bool} (run : c.widen far = .ok (c', split)) :
    ∃ fresh, c.Gains c' fresh := by
  obtain ⟨_, rfl, _⟩ := widen_eq_ok_iff.1 run
  have bound := Widening.boundLabels_insnsFrom c.nextLabel (c.insns.zip far)
  have few := Widening.countP_splits_le_executedIn (c.insns.zip far)
  rw [List.map_fst_zip (Nat.le_of_eq whole.symm)] at bound few
  have executed : executedIn c.insns = c.executed.length := List.countP_eq_length_filter
  rw [executed] at few
  generalize (c.insns.zip far).countP Widening.splits = k at bound few
  have room : c.nextLabel.toNat + k < 4294967296 :=
    Nat.lt_of_le_of_lt (Nat.add_le_add_left few _) room
  refine ⟨freshLabels c.nextLabel k, bound, nodup_freshLabels (by omega), fun l mem => ?_, ?_⟩
  · dsimp only
    rw [toNat_fresh room]
    exact range_freshLabels (Nat.le_of_lt room) mem
  · dsimp only
    rw [toNat_fresh room]
    exact Nat.le_add_right ..

end Code

namespace Labelling

variable {positions : Positions} {first : UInt32} {last : Nat} {s : Labelling}

def newLabels (s : Labelling) (last : Nat) : List Label :=
  (List.range' 0 (last + 1)).filterMap fun i => s.pending[i]?

theorem Counted.nodup_newLabels (h : s.Counted positions first last) : (s.newLabels last).Nodup :=
  List.Nodup.filterMap (fun i j l => h.apart i j l) List.nodup_range'

theorem Counted.newLabels_subset (h : s.Counted positions first last) :
    s.newLabels last ⊆ freshLabels first s.pending.size := by
  intro l mem
  obtain ⟨i, _, found⟩ := List.mem_filterMap.1 mem
  obtain ⟨j, before, number⟩ := h.numbers i l found
  exact List.mem_map.2 ⟨j, List.mem_range.2 before, by rw [← number]⟩

end Labelling

section Reframe

open Reframe

variable {h : Hierarchy} {owner : String} {m : Method} {c c' : Code} {p : Prepared}
  {done : Progress}

theorem bound_of_pending {s : Labelling} {live : Nat → Bool} {count : Nat}
    (insns : c'.insns = Labelling.bindPending s.pending 0 (buryDead live count 0 c.insns []) []) :
    (boundLabels c'.insns).Perm (boundLabels c.insns ++ s.newLabels c.executed.length) := by
  have bound := boundLabels_bindPending s.pending 0 (buryDead live count 0 c.insns [])
  rw [boundLabels_buryDead, countP_buryDead, List.countP_eq_length_filter] at bound
  rw [insns]
  exact bound

theorem closed_withFrames (closed : c.Closed) (made : prepare h owner m c = .ok p)
    (settled : p.settle = .ok done) : (p.withFrames done c).Closed := by
  have consistent := labels_of_prepare made (Labelling.allows_consistent _ _)
    (Labelling.consistent_ofPositions _ _)
  obtain ⟨s, consistent, grown, _, insns, _, frames, same, framed⟩ :=
    withFrames_from made (Labelling.allows_consistent _ _) consistent done
  have binds : ∀ l, c.Binds l → (p.withFrames done c).Binds l := fun l stands =>
    mem_boundLabels.1 ((bound_of_pending insns).mem_iff.2
      (List.mem_append_left _ (mem_boundLabels.2 stands)))
  have known : ∀ i ≤ c.executed.length, ∀ l, s.known[i]? = some l →
      (p.withFrames done c).Binds l := by
    intro i inside l known
    rw [Code.Binds, insns]
    exact (stands_of_known consistent known inside _ _).mem
  have marked : p.analysis.flow.Marked c (p.withFrames done c) fun l _ =>
      (p.withFrames done c).Binds l := by
    refine marked_withFrames made settled (Labelling.allows_consistent _ _)
      (Labelling.consistent_ofPositions _ _) fun s consistent _ insns l i inside held => ?_
    rcases held with found | known
    · exact binds l (Code.stands_of_find? found).mem
    · rw [Code.Binds, insns]
      exact (stands_of_known consistent known inside _ _).mem
  constructor
  case targets =>
    intro i mem l named
    rw [insns] at mem
    obtain ⟨j, mem, named⟩ := targets_buryDead (targets_bindPending mem named) named
    exact binds l (closed.targets j mem l named)
  case handlers =>
    obtain ⟨parts, same, cut⟩ := marked.handlers
    intro e mem
    rw [same] at mem
    obtain ⟨part, mem, inside⟩ := List.mem_flatten.1 mem
    obtain ⟨old, oldMem, _, _, runs, _, _, _, held⟩ := exists_left_of_forall₂ cut mem
    obtain ⟨run, _, held⟩ := exists_left_of_forall₂ held inside
    exact ⟨held.start, held.finish, held.target ▸ binds _ (closed.handlers old oldMem).2.2⟩
  case locals => exact fun v mem => (closed.locals v mem).imp (binds _) (binds _)
  case frames =>
    intro f mem
    rw [same] at mem
    obtain ⟨x, xMem, place, types⟩ := exists_left_of_forall₂ framed mem
    have inside := lt_size_of_framed xMem
    rw [Flow.size_of_ofCode (prepare_eq made).2.1] at inside
    refine ⟨known x.1 (Nat.le_of_lt inside) f.1 place, fun l site => ?_⟩
    rw [types] at site
    obtain ⟨i, inside, labelled⟩ := uninitSites_toFrame (sited_framedStates made settled xMem) site
    exact known i inside l (grown i l labelled)
  case hints => exact fun f mem => nomatch mem

theorem Code.Closed.reframe (closed : c.Closed) {withFrames : Bool}
    (run : reframe h owner m c withFrames = .ok c') : c'.Closed := by
  obtain ⟨p, made, run⟩ := bind_ok_iff.1 run
  obtain ⟨done, settled, run⟩ := bind_ok_iff.1 run
  cases run
  cases withFrames with
  | false =>
    exact ⟨closed.targets, closed.handlers, closed.locals, fun f mem => (nomatch mem),
      fun f mem => nomatch mem⟩
  | true => exact closed_withFrames closed made settled

theorem counted_finish (room : c.executed.length + 1 < 4294967296) {p : Prepared}
    (made : prepare h owner m c = .ok p) (done : Progress) :
    ∃ (s : Labelling) (live : Nat → Bool) (count : Nat),
      s.Counted c.positions c.nextLabel c.executed.length ∧
        (p.finish true done c).nextLabel = s.next ∧ (p.finish true done c).insns =
          Labelling.bindPending s.pending 0 (buryDead live count 0 c.insns []) [] := by
  obtain ⟨s, counted, next, insns, _⟩ := withFrames_eq made (Labelling.allows_counted room)
    (Labelling.counted_ofPositions ..) done
  exact ⟨s, _, _, counted, next, insns⟩

theorem gains_reframe (room : c.HasRoom (c.executed.length + 1)) {withFrames : Bool}
    (run : reframe h owner m c withFrames = .ok c') : ∃ fresh, c.Gains c' fresh := by
  have few : c.executed.length + 1 < 4294967296 := Nat.lt_of_le_of_lt (Nat.le_add_left ..) room
  obtain ⟨p, made, run⟩ := bind_ok_iff.1 run
  obtain ⟨done, settled, run⟩ := bind_ok_iff.1 run
  cases run
  cases withFrames with
  | false =>
    have start := labels_of_prepare made (Labelling.allows_counted few)
      (Labelling.counted_ofPositions ..)
    refine ⟨[], ?_, .nil, fun l mem => (nomatch mem), ?_⟩
    · rw [List.append_nil]
      exact .refl _
    · exact (start.numbered room).next ▸ Nat.le_add_right ..
  | true =>
    obtain ⟨s, _, _, counted, next, insns⟩ := counted_finish few made done
    have low := (counted.numbered room).next
    have room : c.nextLabel.toNat + s.pending.size < 4294967296 := by
      have := counted.size_le
      exact Nat.lt_of_le_of_lt (Nat.add_le_add_left this _) room
    refine ⟨_, bound_of_pending insns, counted.nodup_newLabels, fun l mem => ?_, ?_⟩
    · rw [next, low]
      exact range_freshLabels (Nat.le_of_lt room) (counted.newLabels_subset mem)
    · rw [next, low]
      exact Nat.le_add_right ..

end Reframe

end ClassWeave
