import Mathlib.Data.List.Perm.Subperm
import Mathlib.Tactic.Common
import ClassWeave.Analysis.Reframe
import ClassWeave.Proofs.Sequences

/-!
# Where the labels of a recomputed body stand

A label that is asked for at an instruction stands there already, or it is put there once all
instructions are known. Burying dead code and binding new labels leaves the old ones in place.
-/

set_option autoImplicit false

namespace ClassWeave

def Insn.next (insn : Insn) (n : Nat) : Nat := if insn.isExecuted then n + 1 else n

/-- Label `l` stands in front of instruction `i` of a list whose first instruction is number `n`. -/
inductive Stands (l : Label) (i : Nat) : Nat → List Insn → Prop where
  | here (rest : List Insn) : Stands l i i (.label l :: rest)
  | later {n : Nat} {rest : List Insn} (insn : Insn) (h : Stands l i (insn.next n) rest) :
      Stands l i n (insn :: rest)

section Lists

variable {l : Label} {i n : Nat} {insns : List Insn}

theorem positionsFrom_cons (positions : Positions) (n : Nat) (insn : Insn) (rest : List Insn) :
    Code.positionsFrom positions n (insn :: rest) =
      Code.positionsFrom (match insn with
        | .label l => positions.bind l n
        | _ => positions) (insn.next n) rest := by
  cases insn <;> rfl

theorem stands_of_positionsFrom {positions : Positions}
    (found : (Code.positionsFrom positions n insns).find? l = some i) :
    positions.find? l = some i ∨ Stands l i n insns := by
  induction insns generalizing positions n with
  | nil => exact .inl found
  | cons insn rest ih =>
    rw [positionsFrom_cons] at found
    rcases ih found with found | later
    · split at found
      · rename_i x
        rw [Positions.find?_bind] at found
        split at found
        · rename_i same
          cases same
          cases found
          exact .inr (.here rest)
        · exact .inl found
      · exact .inl found
    · exact .inr (.later insn later)

theorem Code.stands_of_find? {c : Code} (found : c.positions.find? l = some i) :
    Stands l i 0 c.insns := by
  refine (stands_of_positionsFrom found).resolve_left fun h => ?_
  rw [Positions.find?_empty] at h
  cases h

theorem buryDead_append (live : Nat → Bool) (count n : Nat) (insns done : List Insn) :
    Reframe.buryDead live count n insns done =
      done.reverse ++ Reframe.buryDead live count n insns [] := by
  induction insns generalizing n done with
  | nil => exact (List.append_nil _).symm
  | cons insn rest ih =>
    rw [Reframe.buryDead, Reframe.buryDead]
    split
    · rw [ih (n + 1), ih (n + 1) [_], List.reverse_cons, List.append_assoc]
      rfl
    · rw [ih n, ih n [_], List.reverse_cons, List.append_assoc]
      rfl

def buried (live : Nat → Bool) (count n : Nat) (insn : Insn) : Insn :=
  if insn.isExecuted = false ∨ live n = true then insn
  else if n + 1 < count ∧ ¬ live (n + 1) then .simple Opcode.nop
  else .simple Opcode.athrow

theorem isExecuted_buried (live : Nat → Bool) (count n : Nat) (insn : Insn) :
    (buried live count n insn).isExecuted = insn.isExecuted := by
  unfold buried
  split
  · rfl
  · rename_i dead
    have runs : insn.isExecuted = true := eq_true_of_ne_false (not_or.1 dead).1
    split
    · exact runs.symm
    · exact runs.symm

theorem buryDead_cons (live : Nat → Bool) (count n : Nat) (insn : Insn) (rest : List Insn) :
    Reframe.buryDead live count n (insn :: rest) [] =
      buried live count n insn :: Reframe.buryDead live count (insn.next n) rest [] := by
  rw [Reframe.buryDead, buried, Insn.next]
  cases runs : insn.isExecuted with
  | false => exact buryDead_append live count n rest [insn]
  | true =>
    rw [if_pos rfl, if_pos rfl]
    cases lives : live n with
    | false => exact buryDead_append live count (n + 1) rest [_]
    | true => exact buryDead_append live count (n + 1) rest [insn]

theorem Stands.buryDead (live : Nat → Bool) (count : Nat) (h : Stands l i n insns) :
    Stands l i n (Reframe.buryDead live count n insns []) := by
  induction h with
  | here rest =>
    rw [buryDead_cons]
    exact .here _
  | later insn _ ih =>
    rw [buryDead_cons]
    refine .later _ ?_
    rwa [Insn.next, isExecuted_buried]

theorem countP_buryDead (live : Nat → Bool) (count n : Nat) (insns : List Insn) :
    (Reframe.buryDead live count n insns []).countP Insn.isExecuted =
      insns.countP Insn.isExecuted := by
  induction insns generalizing n with
  | nil => rfl
  | cons insn rest ih =>
    rw [buryDead_cons, List.countP_cons, List.countP_cons, ih, isExecuted_buried]

theorem bindPending_append (pending : Std.TreeMap Nat Label) (n : Nat) (insns done : List Insn) :
    Labelling.bindPending pending n insns done =
      done.reverse ++ Labelling.bindPending pending n insns [] := by
  induction insns generalizing n done with
  | nil =>
    rw [Labelling.bindPending, Labelling.bindPending]
    split
    · exact List.reverse_cons
    · exact (List.append_nil _).symm
  | cons insn rest ih =>
    rw [Labelling.bindPending, Labelling.bindPending]
    split
    · split
      · rw [ih (n + 1), ih (n + 1) [_, _], List.reverse_cons, List.reverse_cons]
        simp only [List.append_assoc]
        rfl
      · rw [ih (n + 1), ih (n + 1) [_], List.reverse_cons, List.append_assoc]
        rfl
    · rw [ih n, ih n [_], List.reverse_cons, List.append_assoc]
      rfl

def pendingLabel (pending : Std.TreeMap Nat Label) (n : Nat) : List Insn :=
  (pending[n]?.map Insn.label).toList

theorem bindPending_nil (pending : Std.TreeMap Nat Label) (n : Nat) :
    Labelling.bindPending pending n [] [] = pendingLabel pending n := by
  rw [Labelling.bindPending, pendingLabel]
  cases pending[n]? <;> rfl

theorem bindPending_cons (pending : Std.TreeMap Nat Label) (n : Nat) (insn : Insn)
    (rest : List Insn) : Labelling.bindPending pending n (insn :: rest) [] =
      (if insn.isExecuted then pendingLabel pending n else []) ++
        insn :: Labelling.bindPending pending (insn.next n) rest [] := by
  rw [Labelling.bindPending, Insn.next, pendingLabel]
  split
  · cases pending[n]? with
    | none => exact bindPending_append pending (n + 1) rest [insn]
    | some x => exact bindPending_append pending (n + 1) rest [insn, .label x]
  · exact bindPending_append pending n rest [insn]

theorem Stands.append_pendingLabel (pending : Std.TreeMap Nat Label) {k : Nat}
    (h : Stands l i n insns) : Stands l i n (pendingLabel pending k ++ insns) := by
  unfold pendingLabel
  cases pending[k]? with
  | none => exact h
  | some x => exact .later (.label x) h

theorem Stands.bindPending (pending : Std.TreeMap Nat Label) (h : Stands l i n insns) :
    Stands l i n (Labelling.bindPending pending n insns []) := by
  induction h with
  | here rest =>
    rw [bindPending_cons]
    exact .here _
  | later insn _ ih =>
    rw [bindPending_cons]
    split
    · exact .append_pendingLabel pending (.later insn ih)
    · exact .later insn ih

theorem stands_bindPending {pending : Std.TreeMap Nat Label} (bound : pending[i]? = some l)
    (start : n ≤ i) (finish : i ≤ n + insns.countP Insn.isExecuted) :
    Stands l i n (Labelling.bindPending pending n insns []) := by
  have here (rest : List Insn) : Stands l i i (pendingLabel pending i ++ rest) := by
    rw [pendingLabel, bound]
    exact .here rest
  induction insns generalizing n with
  | nil =>
    obtain rfl : n = i := Nat.le_antisymm start finish
    rw [bindPending_nil, ← List.append_nil (pendingLabel pending n)]
    exact here []
  | cons insn rest ih =>
    rw [bindPending_cons]
    rw [List.countP_cons] at finish
    split
    · rename_i runs
      by_cases same : n = i
      · subst same
        exact here _
      · refine .append_pendingLabel pending (.later insn ?_)
        rw [if_pos runs] at finish
        rw [Insn.next, if_pos runs]
        exact ih (by omega) (by omega)
    · rename_i still
      refine .later insn ?_
      rw [if_neg still] at finish
      rw [Insn.next, if_neg still]
      exact ih start finish

theorem stands_cons {insn : Insn} {rest : List Insn} :
    Stands l i n (insn :: rest) ↔ (insn = .label l ∧ i = n) ∨ Stands l i (insn.next n) rest := by
  constructor
  · intro h
    cases h with
    | here => exact .inl ⟨rfl, rfl⟩
    | later _ h => exact .inr h
  · rintro (⟨rfl, rfl⟩ | h)
    · exact .here rest
    · exact .later insn h

theorem Stands.mem (h : Stands l i n insns) : Insn.label l ∈ insns := by
  induction h with
  | here rest => exact List.mem_cons_self ..
  | later insn _ ih => exact List.mem_cons_of_mem insn ih

theorem Stands.le (h : Stands l i n insns) : i ≤ n + insns.countP Insn.isExecuted := by
  induction h with
  | here rest => exact Nat.le_add_right ..
  | @later n rest insn _ ih =>
    refine Nat.le_trans ih ?_
    rw [List.countP_cons, Insn.next]
    split
    · omega
    · omega

theorem buried_eq_label {live : Nat → Bool} {count : Nat} {insn : Insn} :
    buried live count n insn = .label l ↔ insn = .label l := by
  constructor
  · intro same
    unfold buried at same
    split at same
    · exact same
    · split at same
      · cases same
      · cases same
  · rintro rfl
    rfl

theorem Stands.of_buryDead {live : Nat → Bool} {count : Nat}
    (h : Stands l i n (Reframe.buryDead live count n insns [])) : Stands l i n insns := by
  induction insns generalizing n with
  | nil => exact h
  | cons insn rest ih =>
    rw [buryDead_cons, stands_cons, buried_eq_label, Insn.next, isExecuted_buried] at h
    exact stands_cons.2 (h.imp_right ih)

theorem Stands.of_bindPending {pending : Std.TreeMap Nat Label}
    (h : Stands l i n (Labelling.bindPending pending n insns [])) :
    Stands l i n insns ∨ pending[i]? = some l := by
  have added : ∀ {k : Nat} {rest : List Insn}, Stands l i k (pendingLabel pending k ++ rest) →
      pending[i]? = some l ∨ Stands l i k rest := by
    intro k rest h
    unfold pendingLabel at h
    cases bound : pending[k]? with
    | none =>
      rw [bound] at h
      exact .inr h
    | some x =>
      rw [bound] at h
      rcases stands_cons.1 h with ⟨same, rfl⟩ | h
      · cases same
        exact .inl bound
      · exact .inr h
  induction insns generalizing n with
  | nil =>
    rw [bindPending_nil, ← List.append_nil (pendingLabel pending n)] at h
    exact (added h).symm
  | cons insn rest ih =>
    rw [bindPending_cons] at h
    have old : Stands l i n (insn :: Labelling.bindPending pending (insn.next n) rest []) →
        Stands l i n (insn :: rest) ∨ pending[i]? = some l := by
      intro h
      rcases stands_cons.1 h with here | h
      · exact .inl (stands_cons.2 (.inl here))
      · exact (ih h).imp_left fun h => stands_cons.2 (.inr h)
    split at h
    · rcases added h with here | h
      · exact .inr here
      · exact old h
    · exact old h

theorem find?_positionsFrom (positions : Positions) (n : Nat) (insns : List Insn) :
    (∃ i, (Code.positionsFrom positions n insns).find? l = some i ∧ Stands l i n insns) ∨
      (Code.positionsFrom positions n insns).find? l = positions.find? l ∧
        ∀ i, ¬ Stands l i n insns := by
  induction insns generalizing positions n with
  | nil => exact .inr ⟨rfl, fun i h => nomatch h⟩
  | cons insn rest ih =>
    rw [positionsFrom_cons]
    rcases ih (match insn with
      | .label l => positions.bind l n
      | _ => positions) (insn.next n) with ⟨i, found, h⟩ | ⟨found, absent⟩
    · exact .inl ⟨i, found, .later insn h⟩
    · by_cases here : insn = .label l
      · subst here
        rw [Positions.find?_bind, if_pos rfl] at found
        exact .inl ⟨n, found, .here rest⟩
      · refine .inr ⟨found.trans ?_, fun i h => ?_⟩
        · cases insn with
          | label x =>
            have other : x ≠ l := fun same => here (congrArg Insn.label same)
            rw [Positions.find?_bind, if_neg other]
          | _ => rfl
        · exact (stands_cons.1 h).elim (fun h => here h.1) (absent i)

theorem Code.find?_of_stands {c : Code} (h : Stands l i 0 c.insns)
    (only : ∀ j, Stands l j 0 c.insns → j = i) : c.positions.find? l = some i := by
  rcases find?_positionsFrom Positions.empty 0 c.insns with ⟨j, found, h'⟩ | ⟨_, absent⟩
  · exact only j h' ▸ found
  · exact absurd h (absent i)

theorem positionsFrom_buryDead (live : Nat → Bool) (count : Nat) (positions : Positions) (n : Nat)
    (insns : List Insn) :
    Code.positionsFrom positions n (Reframe.buryDead live count n insns []) =
      Code.positionsFrom positions n insns := by
  induction insns generalizing positions n with
  | nil => rfl
  | cons insn rest ih =>
    rw [buryDead_cons, positionsFrom_cons, positionsFrom_cons, Insn.next, isExecuted_buried,
      ← Insn.next, ih]
    have labels : ∀ x, buried live count n insn = .label x ↔ insn = .label x := fun x =>
      buried_eq_label
    congr 1
    cases insn with
    | label x => rfl
    | _ =>
      split
      · rename_i x same
        exact nomatch (labels x).1 same
      · rfl

theorem find?_positionsFrom_bindPending {pending : Std.TreeMap Nat Label}
    (absent : ∀ i : Nat, pending[i]? ≠ some l) {old new : Positions}
    (same : new.find? l = old.find? l) (n : Nat) (insns : List Insn) :
    (Code.positionsFrom new n (Labelling.bindPending pending n insns [])).find? l =
      (Code.positionsFrom old n insns).find? l := by
  have added : ∀ (positions : Positions) (k : Nat) (rest : List Insn),
      ∃ positions' : Positions, positions'.find? l = positions.find? l ∧
        Code.positionsFrom positions k (pendingLabel pending k ++ rest) =
          Code.positionsFrom positions' k rest := by
    intro positions k rest
    unfold pendingLabel
    cases bound : pending[k]? with
    | none => exact ⟨positions, rfl, rfl⟩
    | some x =>
      refine ⟨positions.bind x k, ?_, rfl⟩
      rw [Positions.find?_bind, if_neg]
      rintro rfl
      exact absent k bound
  induction insns generalizing old new n with
  | nil =>
    obtain ⟨positions, kept, moved⟩ := added new n []
    rw [bindPending_nil, ← List.append_nil (pendingLabel pending n), moved]
    exact kept.trans same
  | cons insn rest ih =>
    have behind : ∀ positions : Positions, positions.find? l = old.find? l →
        (Code.positionsFrom positions n
          (insn :: Labelling.bindPending pending (insn.next n) rest [])).find? l =
            (Code.positionsFrom old n (insn :: rest)).find? l := by
      intro positions kept
      rw [positionsFrom_cons, positionsFrom_cons]
      refine ih ?_ _
      cases insn with
      | label x =>
        rw [Positions.find?_bind, Positions.find?_bind, kept]
      | _ => exact kept
    rw [bindPending_cons]
    split
    · obtain ⟨positions, kept, moved⟩ := added new n
        (insn :: Labelling.bindPending pending (insn.next n) rest [])
      rw [moved]
      exact behind positions (kept.trans same)
    · exact behind new same

end Lists

/-! Numbers that are taken one after the other -/

theorem toNat_fresh {first : UInt32} {j : Nat} (room : first.toNat + j < 4294967296) :
    (first + UInt32.ofNat j).toNat = first.toNat + j := by
  rw [UInt32.toNat_add, UInt32.toNat_ofNat_of_lt' (show j < 4294967296 by omega),
    Nat.mod_eq_of_lt room]

theorem eq_of_add_ofNat {first : UInt32} {i j : Nat} (hi : i < 4294967296) (hj : j < 4294967296)
    (same : first + UInt32.ofNat i = first + UInt32.ofNat j) : i = j := by
  have toNat := congrArg UInt32.toNat ((UInt32.add_right_inj _).1 same)
  rwa [UInt32.toNat_ofNat_of_lt' hi, UInt32.toNat_ofNat_of_lt' hj] at toNat

namespace Labelling

/-- Every known label has its position in the body or is pending there. -/
structure Consistent (positions : Positions) (s : Labelling) : Prop where
  bound : ∀ (i : Nat) (l : Label), s.known[i]? = some l →
    positions.find? l = some i ∨ s.pending[i]? = some l
  known : ∀ (i : Nat) (l : Label), s.pending[i]? = some l → s.known[i]? = some l

def Extends (s s' : Labelling) : Prop :=
  ∀ (i : Nat) (l : Label), s.known[i]? = some l → s'.known[i]? = some l

def withNew (s : Labelling) (i : Nat) : Labelling :=
  ⟨s.known.insert i ⟨s.next⟩, s.pending.insert i ⟨s.next⟩, s.next + 1⟩

def Keeps {α : Type} (Inv : Labelling → Prop) (step : StateM Labelling α)
    (P : α → Labelling → Prop) : Prop :=
  ∀ s : Labelling, Inv s →
    Inv (step.run s).2 ∧ s.Extends (step.run s).2 ∧ P (step.run s).1 (step.run s).2

variable {α β : Type} {Inv : Labelling → Prop} {P : α → Labelling → Prop}

theorem Keeps.pure {a : α} (h : ∀ s, P a s) : Keeps Inv (pure a) P :=
  fun s inv => ⟨inv, fun _ _ h => h, h s⟩

theorem Keeps.mono {step : StateM Labelling α} {Q : α → Labelling → Prop}
    (h : Keeps Inv step Q) (imp : ∀ a s, Q a s → P a s) : Keeps Inv step P := by
  intro s inv
  obtain ⟨inv, grown, held⟩ := h s inv
  exact ⟨inv, grown, imp _ _ held⟩

theorem Keeps.bind {step : StateM Labelling β} {next : β → StateM Labelling α}
    {Q : β → Labelling → Prop} (first : Keeps Inv step Q)
    (second : ∀ b, Keeps Inv (next b) fun a s => ∀ s', s'.Extends s → Q b s' → P a s) :
    Keeps Inv (step >>= next) P := by
  intro s inv
  obtain ⟨inv, grown, held⟩ := first s inv
  obtain ⟨inv, grown', held'⟩ := second (step.run s).1 (step.run s).2 inv
  exact ⟨inv, fun i l h => grown' i l (grown i l h), held' _ grown' held⟩

theorem keeps_labelAt {i : Nat}
    (made : ∀ s : Labelling, Inv s → s.known[i]? = none → Inv (s.withNew i)) :
    Keeps Inv (labelAt i) fun l s => s.known[i]? = some l := by
  intro s inv
  cases known : s.known[i]? with
  | some l =>
    have run : (labelAt i).run s = (l, s) := by
      show (labelAt i) s = _
      unfold labelAt
      rw [known]
    rw [run]
    exact ⟨inv, fun _ _ h => h, known⟩
  | none =>
    have run : (labelAt i).run s = (⟨s.next⟩, s.withNew i) := by
      show (labelAt i) s = _
      unfold labelAt
      rw [known]
      rfl
    rw [run]
    refine ⟨made s inv known, fun j l h => ?_, Std.TreeMap.getElem?_insert_self⟩
    show (s.known.insert i ⟨s.next⟩)[j]? = some l
    rw [Std.TreeMap.getElem?_insert]
    split
    · rename_i same
      rw [Std.LawfulEqCmp.compare_eq_iff_eq] at same
      rw [← same, known] at h
      cases h
    · exact h

theorem keeps_mapM {f : β → StateM Labelling α} {R : β → α → Labelling → Prop} {bs : List β}
    (stays : ∀ b a (s s' : Labelling), s.Extends s' → R b a s → R b a s')
    (each : ∀ b ∈ bs, Keeps Inv (f b) (R b)) :
    Keeps Inv (bs.mapM f) fun as s => List.Forall₂ (fun b a => R b a s) bs as := by
  induction bs with
  | nil => exact .pure fun _ => .nil
  | cons b bs ih =>
    rw [List.mapM_cons]
    refine .bind (each b (List.mem_cons_self ..)) fun a => ?_
    refine .bind (ih fun c hc => each c (List.mem_cons_of_mem b hc)) fun as => .pure ?_
    intro s s' grown rest s'' grown' first
    exact .cons (stays b a s'' s grown' first)
      (rest.imp fun b' a' h => stays b' a' s' s grown h)

theorem Consistent.withNew {positions : Positions} {s : Labelling} (h : s.Consistent positions)
    (i : Nat) : (s.withNew i).Consistent positions := by
  constructor
  case bound =>
    intro j l known
    change (s.known.insert i _)[j]? = some l at known
    show _ ∨ (s.pending.insert i _)[j]? = some l
    rw [Std.TreeMap.getElem?_insert] at known ⊢
    split at known
    · rename_i same
      rw [if_pos same]
      exact .inr known
    · rename_i other
      rw [if_neg other]
      exact h.bound j l known
  case known =>
    intro j l pending
    change (s.pending.insert i _)[j]? = some l at pending
    show (s.known.insert i _)[j]? = some l
    rw [Std.TreeMap.getElem?_insert] at pending ⊢
    split at pending
    · rename_i same
      rw [if_pos same]
      exact pending
    · rename_i other
      rw [if_neg other]
      exact h.known j l pending

def Allows (Inv : Labelling → Prop) (last : Nat) : Prop :=
  ∀ i ≤ last, ∀ s : Labelling, Inv s → s.known[i]? = none → Inv (s.withNew i)

theorem allows_consistent (positions : Positions) (last : Nat) :
    Allows (Consistent positions) last :=
  fun i _ _ consistent _ => consistent.withNew i

/-- New labels are put in places that have none, one in each, and numbered from `first` on; behind
the last number the numbers start anew. -/
structure Counted (positions : Positions) (first : UInt32) (last : Nat) (s : Labelling) :
    Prop where
  consistent : s.Consistent positions
  covers : ∀ (i : Nat) (l : Label), positions.find? l = some i → s.known[i]?.isSome = true
  places : ∀ (i : Nat) (l : Label), s.pending[i]? = some l →
    i ≤ last ∧ ∀ x, positions.find? x ≠ some i
  next : s.next = first + UInt32.ofNat s.pending.size
  numbers : ∀ (i : Nat) (l : Label), s.pending[i]? = some l →
    ∃ j < s.pending.size, l.number = first + UInt32.ofNat j
  apart : ∀ (i j : Nat) (l : Label), s.pending[i]? = some l → s.pending[j]? = some l → i = j

section Counting

variable {positions : Positions} {first : UInt32} {last : Nat} {s : Labelling}

theorem mem_keys_pending {i : Nat} : i ∈ s.pending.keys ↔ ∃ l, s.pending[i]? = some l := by
  rw [Std.TreeMap.mem_keys, Std.TreeMap.mem_iff_isSome_getElem?, Option.isSome_iff_exists]

theorem Counted.size_le (h : s.Counted positions first last) : s.pending.size ≤ last + 1 := by
  have places : s.pending.keys ⊆ List.range (last + 1) := by
    intro i mem
    obtain ⟨l, found⟩ := mem_keys_pending.1 mem
    exact List.mem_range.2 (Nat.lt_succ_of_le (h.places i l found).1)
  have counted := (List.subperm_of_subset Std.TreeMap.nodup_keys places).length_le
  rwa [Std.TreeMap.length_keys, List.length_range] at counted

theorem allows_counted (room : last + 1 < 4294967296) :
    Allows (Counted positions first last) last := by
  intro i inside s h unknown
  have absent : s.pending[i]? = none := by
    cases pending : s.pending[i]? with
    | none => rfl
    | some l =>
      rw [h.consistent.known i l pending] at unknown
      cases unknown
  have few := h.size_le
  have size : (s.pending.insert i ⟨s.next⟩).size = s.pending.size + 1 := by
    have fresh : ¬ s.pending.contains i = true := by
      rw [Std.TreeMap.contains_eq_isSome_getElem?, absent]
      exact Bool.false_ne_true
    rw [Std.TreeMap.size_insert, if_neg fresh]
  have inserted : ∀ (j : Nat) (l : Label), (s.withNew i).pending[j]? = some l →
      (i = j ∧ l = ⟨s.next⟩) ∨ s.pending[j]? = some l := by
    intro j l found
    change (s.pending.insert i _)[j]? = some l at found
    rw [Std.TreeMap.getElem?_insert] at found
    split at found
    · rename_i same
      rw [Std.LawfulEqCmp.compare_eq_iff_eq] at same
      exact .inl ⟨same, (Option.some.inj found).symm⟩
    · exact .inr found
  -- the next number is not among those that were given out
  have other : ∀ j : Nat, s.pending[j]? ≠ some ⟨s.next⟩ := by
    intro j found
    obtain ⟨k, before, same⟩ := h.numbers j _ found
    rw [h.next] at same
    have := eq_of_add_ofNat (by omega) (by omega) same
    omega
  constructor
  case consistent => exact h.consistent.withNew i
  case covers =>
    intro j l found
    show (s.known.insert i _)[j]?.isSome = true
    rw [Std.TreeMap.getElem?_insert]
    split
    · rfl
    · exact h.covers j l found
  case places =>
    intro j l found
    rcases inserted j l found with ⟨rfl, _⟩ | found
    · refine ⟨inside, fun x bound => ?_⟩
      have known := h.covers i x bound
      rw [unknown] at known
      cases known
    · exact h.places j l found
  case next =>
    show s.next + 1 = first + UInt32.ofNat (s.pending.insert i _).size
    rw [size, h.next, UInt32.ofNat_add, UInt32.add_assoc]
    rfl
  case numbers =>
    intro j l found
    show ∃ k < (s.pending.insert i _).size, _
    rw [size]
    rcases inserted j l found with ⟨_, rfl⟩ | found
    · exact ⟨_, Nat.lt_succ_self _, h.next⟩
    · obtain ⟨k, before, same⟩ := h.numbers j l found
      exact ⟨k, Nat.lt_succ_of_lt before, same⟩
  case apart =>
    intro j k l found found'
    rcases inserted j l found with ⟨rfl, rfl⟩ | found
    · rcases inserted k _ found' with ⟨rfl, _⟩ | found'
      · rfl
      · exact absurd found' (other k)
    · rcases inserted k l found' with ⟨_, rfl⟩ | found'
      · exact absurd found (other j)
      · exact h.apart j k l found found'

/-- The new labels are numbered from `first` on, one for each place. -/
structure Numbered (positions : Positions) (first : UInt32) (last : Nat) (s : Labelling) :
    Prop where
  consistent : s.Consistent positions
  places : ∀ (i : Nat) (l : Label), s.pending[i]? = some l → i ≤ last
  next : s.next.toNat = first.toNat + s.pending.size
  numbers : ∀ (i : Nat) (l : Label), s.pending[i]? = some l →
    first.toNat ≤ l.number.toNat ∧ l.number.toNat < s.next.toNat
  apart : ∀ (i j : Nat) (l : Label), s.pending[i]? = some l → s.pending[j]? = some l → i = j

theorem Counted.numbered (h : s.Counted positions first last)
    (room : first.toNat + last + 1 < 4294967296) : s.Numbered positions first last := by
  have few := h.size_le
  have next : s.next.toNat = first.toNat + s.pending.size := by
    rw [h.next, toNat_fresh (by omega)]
  refine ⟨h.consistent, fun i l found => (h.places i l found).1, next, fun i l found => ?_, h.apart⟩
  obtain ⟨j, before, same⟩ := h.numbers i l found
  rw [next, same, toNat_fresh (by omega)]
  omega

end Counting

theorem consistent_ofPositions (positions : Positions) (next : UInt32) :
    (ofPositions positions next).Consistent positions := by
  have folded : ∀ (pairs : List (UInt32 × Nat)) (known : Std.TreeMap Nat Label),
      (∀ x ∈ pairs, positions.find? ⟨x.1⟩ = some x.2) →
      (∀ (i : Nat) (l : Label), known[i]? = some l → positions.find? l = some i) →
      ∀ (i : Nat) (l : Label), (pairs.foldl
        (fun known x => known.insertIfNew x.2 ⟨x.1⟩) known)[i]? = some l →
          positions.find? l = some i := by
    intro pairs
    induction pairs with
    | nil => exact fun known _ held => held
    | cons x pairs ih =>
      intro known each held
      refine ih _ (fun y hy => each y (List.mem_cons_of_mem x hy)) fun i l h => ?_
      rw [Std.TreeMap.getElem?_insertIfNew] at h
      split at h
      · rename_i fresh
        rw [← Std.LawfulEqCmp.eq_of_compare fresh.1]
        cases h
        exact each x (List.mem_cons_self ..)
      · exact held i l h
  refine ⟨fun i l h => .inl ?_, fun i l h => ?_⟩
  · refine folded positions.toList ∅ (fun x mem => ?_) (fun i l h => ?_) i l ?_
    · exact Std.TreeMap.mem_toList_iff_getElem?_eq_some.1 mem
    · rw [Std.TreeMap.getElem?_emptyc] at h
      cases h
    · rwa [ofPositions, Std.TreeMap.foldl_eq_foldl_toList] at h
  · rw [ofPositions, Std.TreeMap.getElem?_emptyc] at h
    cases h

theorem known_ofPositions {positions : Positions} {i : Nat} {l : Label}
    (found : positions.find? l = some i) (next : UInt32) :
    (ofPositions positions next).known[i]?.isSome = true := by
  have folded : ∀ (pairs : List (UInt32 × Nat)) (known : Std.TreeMap Nat Label),
      (l.number, i) ∈ pairs ∨ known[i]?.isSome = true → (pairs.foldl
        (fun known x => known.insertIfNew x.2 ⟨x.1⟩) known)[i]?.isSome = true := by
    intro pairs
    induction pairs with
    | nil => exact fun known held => held.resolve_left List.not_mem_nil
    | cons x pairs ih =>
      intro known held
      refine ih _ ?_
      rw [Std.TreeMap.getElem?_insertIfNew]
      rcases held with mem | held
      · rcases List.mem_cons.1 mem with rfl | mem
        · right
          split
          · rfl
          · rename_i taken
            rw [not_and, Classical.not_not, Std.TreeMap.mem_iff_isSome_getElem?] at taken
            exact taken (Std.ReflCmp.compare_self)
        · exact .inl mem
      · right
        split
        · rfl
        · exact held
  rw [ofPositions, Std.TreeMap.foldl_eq_foldl_toList]
  exact folded _ _ (.inl (Std.TreeMap.mem_toList_iff_getElem?_eq_some.2 found))

theorem counted_ofPositions (positions : Positions) (next : UInt32) (last : Nat) :
    (ofPositions positions next).Counted positions next last := by
  have empty : ∀ (i : Nat) (l : Label), (ofPositions positions next).pending[i]? ≠ some l := by
    intro i l found
    rw [ofPositions, Std.TreeMap.getElem?_emptyc] at found
    cases found
  refine ⟨consistent_ofPositions positions next, fun i l found => known_ofPositions found next,
    fun i l found => absurd found (empty i l), ?_, fun i l found => absurd found (empty i l),
    fun i j l found => absurd found (empty i l)⟩
  show next = next + UInt32.ofNat (∅ : Std.TreeMap Nat Label).size
  rw [Std.TreeMap.size_emptyc]
  exact (UInt32.add_zero next).symm

end Labelling

end ClassWeave
