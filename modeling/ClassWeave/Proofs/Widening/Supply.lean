import Mathlib.Data.Set.Card
import Mathlib.Order.Interval.Finset.Nat
import Mathlib.Tactic.Common
import ClassWeave.Proofs.Widening.Control
import ClassWeave.Proofs.Widening.Shields

/-!
# How many labels are taken

Each far branch that is widened leads to a label of the body from before. The wide one is never far
again, and one that was turned around is shielded, unless its new label has the number of an old
one. So the short branches to old labels, with the old labels whose numbers were not given out
yet, become fewer by one for each far branch.
-/

set_option autoImplicit false

namespace ClassWeave

def risky (old : List Label) (insns : List Insn) : Nat :=
  insns.countP fun i => i.shortTarget?.any (· ∈ old)

def spare (old : List Label) (first : UInt32) (taken : Nat) : Nat :=
  old.countP (· ∉ freshLabels first taken)

def newPlaces (old : List Label) (insns : List Insn) : Set Nat :=
  {i | ∃ l ∉ old, Stands l i 0 insns}

section Lists

variable {old : List Label} {l : Label} {n : Nat} {insns rest : List Insn} {insn : Insn}

theorem risky_cons : risky old (insn :: rest) =
    risky old rest + if insn.shortTarget?.any (· ∈ old) then 1 else 0 := List.countP_cons

theorem risky_append (front back : List Insn) :
    risky old (front ++ back) = risky old front + risky old back := List.countP_append

theorem risky_buryDead (live : Nat → Bool) (count n : Nat) (insns : List Insn) :
    risky old (Reframe.buryDead live count n insns []) ≤ risky old insns := by
  induction insns generalizing n with
  | nil => exact Nat.le_refl _
  | cons insn rest ih =>
    have kept : (buried live count n insn).shortTarget?.any (· ∈ old) = true →
        insn.shortTarget?.any (· ∈ old) = true := by
      intro h
      obtain ⟨l, target, known⟩ := (Option.any_eq_true ..).1 h
      exact (Option.any_eq_true ..).2 ⟨l, shortTarget?_buried target, known⟩
    have behind := ih (insn.next n)
    have here : (if (buried live count n insn).shortTarget?.any (· ∈ old) then 1 else 0) ≤
        if insn.shortTarget?.any (· ∈ old) then 1 else 0 := by
      split
      · rename_i h
        rw [if_pos (kept h)]
      · exact Nat.zero_le _
    rw [buryDead_cons, risky_cons, risky_cons]
    omega

theorem risky_bindPending (pending : Std.TreeMap Nat Label) (n : Nat) (insns : List Insn) :
    risky old (Labelling.bindPending pending n insns []) = risky old insns := by
  have marks : ∀ marks : List Insn, (∀ i ∈ marks, i.isExecuted = false) → risky old marks = 0 := by
    intro marks still
    refine List.countP_eq_zero.2 fun i mem => ?_
    simp [Insn.shortTarget?_of_mark (still i mem)]
  induction insns generalizing n with
  | nil =>
    rw [bindPending_nil]
    exact marks _ fun i mem => mark_of_mem_pendingLabel mem
  | cons insn rest ih =>
    obtain ⟨front, still, parts⟩ := bindPending_parts pending n insn rest
    rw [parts, risky_append, marks front still, risky_cons, risky_cons, ih, Nat.zero_add]

theorem spare_add {first : UInt32} {taken k : Nat} (room : taken + k ≤ 4294967296)
    {new : List Label} (distinct : new.Nodup)
    (among : new ⊆ freshLabels (first + UInt32.ofNat taken) k) :
    spare old first (taken + k) + new.countP (· ∈ old) ≤ spare old first taken := by
  have nodup : (freshLabels first (taken + k)).Nodup := nodup_freshLabels room
  rw [freshLabels_add] at nodup
  have apart := List.disjoint_of_nodup_append nodup
  let free := old.filter fun l => l ∉ freshLabels first taken
  have found : new.filter (· ∈ old) ⊆
      free.filter fun l => l ∈ freshLabels (first + UInt32.ofNat taken) k := by
    intro l mem
    simp only [free, List.mem_filter, decide_eq_true_eq] at mem ⊢
    exact ⟨⟨mem.2, fun before => apart before (among mem.1)⟩, among mem.1⟩
  have few := (List.subperm_of_subset (distinct.filter _) found).length_le
  have rest : spare old first (taken + k) =
      free.countP fun l => l ∉ freshLabels (first + UInt32.ofNat taken) k := by
    rw [List.countP_filter, spare, freshLabels_add]
    refine List.countP_congr fun l _ => ?_
    simp [and_comm]
  have whole : spare old first taken = free.length := List.countP_eq_length_filter
  have parts := List.length_eq_countP_add_countP
    (fun l => decide (l ∈ freshLabels (first + UInt32.ofNat taken) k)) (l := free)
  simp only [← List.countP_eq_length_filter, decide_eq_true_eq] at few parts
  omega

/-! The places of new labels -/

theorem le_of_mem_newPlaces {i : Nat} (mem : i ∈ newPlaces old insns) : i ≤ executedIn insns := by
  obtain ⟨l, _, stands⟩ := mem
  exact (Nat.zero_add (executedIn insns)) ▸ stands.le

theorem finite_newPlaces (old : List Label) (insns : List Insn) :
    (newPlaces old insns).Finite :=
  (Set.finite_Iic (executedIn insns)).subset fun _ mem => le_of_mem_newPlaces mem

theorem ncard_le_of_inside {places : Set Nat} {last : Nat} (inside : ∀ i ∈ places, i ≤ last) :
    places.ncard ≤ last + 1 := by
  have within : places ⊆ ↑(Finset.range (last + 1)) := by
    intro i mem
    have := inside i mem
    simp
    omega
  have few := Set.ncard_le_ncard within (Finset.finite_toSet _)
  rwa [Set.ncard_coe_finset, Finset.card_range] at few

theorem Stands.eq_of_once {i j : Nat} (first : Stands l i n insns) (second : Stands l j n insns)
    (once : (boundLabels insns).count l ≤ 1) : i = j := by
  have behind : ∀ {rest : List Insn} {i n : Nat}, Stands l i n rest →
      0 < (boundLabels rest).count l := fun stands =>
    List.count_pos_iff.2 (mem_boundLabels.2 stands.mem)
  have here : (Insn.label l).bound?.toList.count l = 1 := by simp [Insn.bound?]
  induction insns generalizing n with
  | nil => cases first
  | cons insn rest ih =>
    rw [boundLabels_cons, List.count_append] at once
    rcases stands_cons.1 first with ⟨rfl, rfl⟩ | laterFirst
    · rcases stands_cons.1 second with ⟨_, rfl⟩ | laterSecond
      · rfl
      · have := behind laterSecond
        omega
    · rcases stands_cons.1 second with ⟨rfl, rfl⟩ | laterSecond
      · have := behind laterFirst
        omega
      · exact ih laterFirst laterSecond (by omega)

end Lists

namespace Widening

variable {old : List Label} {s : Insn × Option Int} {steps : List (Insn × Option Int)}
  {next : UInt32}

theorem countP_far_le (far : ∀ s ∈ steps, FarFrom old s) :
    steps.countP (·.2.isSome) ≤ risky old (steps.map Prod.fst) := by
  rw [risky, List.countP_map]
  refine List.countP_mono_left fun s mem isFar => ?_
  obtain ⟨l, known, target⟩ := far s mem isFar
  simp [target, known]

theorem risky_part (far : FarFrom old s) (isFar : s.2.isSome = true) (skip : Label) :
    risky old (part skip s) ≤ if splits s = true ∧ skip ∈ old then 1 else 0 := by
  cases split : splits s with
  | true =>
    obtain ⟨op, x, d, rfl, noGoto, noJsr⟩ := splits_iff.1 split
    have long : risky old [.jump Opcode.gotoW x, .label skip] = 0 := rfl
    rw [part_of_splits noGoto noJsr, risky_cons, long, Nat.zero_add]
    by_cases known : skip ∈ old
    · simp only [known, and_true, if_pos]
      split <;> omega
    · have turned : (Insn.jump (op.opposite?.getD op) skip).shortTarget?.any (· ∈ old) = false := by
        simp only [Insn.shortTarget?]
        split <;> simp [known]
      simp [turned]
  | false =>
    obtain ⟨insn, some_d⟩ := s
    obtain ⟨d, rfl⟩ := Option.isSome_iff_exists.1 isFar
    obtain ⟨l, _, target⟩ := far isFar
    obtain ⟨op, rfl, _⟩ := Insn.shortTarget?_eq_some.1 target
    have long : (wide (.jump op l, some d)).shortTarget? = none := by
      simp only [wide, Insn.shortTarget?]
      split <;> simp [Opcode.isWideJump]
    simp [part_of_keeps split, risky, long]

theorem risky_insnsFrom (far : ∀ s ∈ steps, FarFrom old s) (next : UInt32) :
    risky old (insnsFrom next steps) + steps.countP (·.2.isSome) ≤
      risky old (steps.map Prod.fst) +
        (freshLabels next (steps.countP splits)).countP (· ∈ old) := by
  induction steps generalizing next with
  | nil => simp [insnsFrom, parts, risky]
  | cons s rest ih =>
    rw [List.forall_mem_cons] at far
    have behind := ih far.2 (after next s)
    rw [List.countP_cons, List.map_cons, risky_cons, List.countP_cons]
    cases distance : s.2 with
    | none =>
      obtain ⟨_, keeps⟩ := part_of_near distance ⟨next⟩
      rw [insnsFrom_near distance, risky_cons, keeps]
      rw [after, keeps] at behind
      simp only [Bool.false_eq_true, Option.isSome_none, if_false, Nat.add_zero] at behind ⊢
      omega
    | some d =>
      obtain ⟨l, known, target⟩ := far.1 (by simp [distance])
      have counted : s.1.shortTarget?.any (· ∈ old) = true := by simp [target, known]
      have part := risky_part far.1 (by simp [distance]) ⟨next⟩
      rw [insnsFrom_cons, risky_append, counted]
      unfold after at behind
      unfold after
      cases split : splits s with
      | true =>
        rw [split, if_pos rfl] at behind
        simp only [split, true_and] at part
        simp only [if_pos, freshLabels_succ, List.countP_cons, decide_eq_true_eq,
          Option.isSome_some]
        omega
      | false =>
        rw [split, if_neg Bool.false_ne_true] at behind
        simp only [split, Bool.false_eq_true, false_and, if_false] at part
        simp only [Bool.false_eq_true, if_false, if_pos, Option.isSome_some, Nat.add_zero]
        omega

theorem ncard_newPlaces_insnsFrom (apart : ∀ l ∈ boundLabels (steps.map Prod.fst), l ∉ old →
    l ∉ freshLabels next (steps.countP splits)) :
    (newPlaces old (steps.map Prod.fst)).ncard ≤ (newPlaces old (insnsFrom next steps)).ncard := by
  rw [← Set.ncard_image_of_injective _ (strictMono_moved steps).injective]
  refine Set.ncard_le_ncard ?_ (finite_newPlaces _ _)
  rintro _ ⟨n, ⟨l, new, stands⟩, rfl⟩
  exact ⟨l, new, (stands_moved (apart l (mem_boundLabels.2 stands.mem) new)).2 ⟨n, rfl, stands⟩⟩

end Widening

/-! Labels that are put in when frames are computed -/

namespace Labelling

variable {positions : Positions} {first : UInt32} {last : Nat} {s : Labelling} {old : List Label}

namespace Counted

theorem ncard_pending (h : s.Counted positions first last) (q : Label → Bool) :
    {i : Nat | ∃ l, q l = true ∧ s.pending[i]? = some l}.ncard = (s.newLabels last).countP q := by
  let places := (List.range' 0 (last + 1)).filter fun i => s.pending[i]?.any q
  have same : {i : Nat | ∃ l, q l = true ∧ s.pending[i]? = some l} = ↑places.toFinset := by
    ext i
    simp only [places, Set.mem_ofPred_eq, List.coe_toFinset, List.mem_filter, Option.any_eq_true,
      List.mem_range'_1]
    constructor
    · rintro ⟨l, held, found⟩
      have := (h.places i l found).1
      exact ⟨by omega, l, found, held⟩
    · rintro ⟨_, l, found, held⟩
      exact ⟨l, held, found⟩
  have distinct : places.Nodup := (List.nodup_range').filter _
  rw [same, Set.ncard_coe_finset, List.toFinset_card_of_nodup distinct, newLabels,
    List.countP_filterMap, ← List.countP_eq_length_filter]
  refine List.countP_congr fun i _ => ?_
  cases s.pending[i]? <;> simp

theorem length_newLabels (h : s.Counted positions first last) :
    (s.newLabels last).length = s.pending.size := by
  have counted := h.ncard_pending fun _ => true
  have same : {i : Nat | ∃ l, true = true ∧ s.pending[i]? = some l} = ↑s.pending.keys.toFinset := by
    ext i
    simp only [true_and, Set.mem_ofPred_eq, List.coe_toFinset]
    exact mem_keys_pending.symm
  rw [same, Set.ncard_coe_finset, List.toFinset_card_of_nodup Std.TreeMap.nodup_keys,
    Std.TreeMap.length_keys] at counted
  rw [counted, List.countP_true]

end Counted

end Labelling

/-- Since the body was `c₀`, `taken` labels were taken, and some of them were bound. -/
structure Tally (c₀ c : Code) (taken : Nat) : Prop where
  room : taken ≤ 4294967296
  next : c.nextLabel = c₀.nextLabel + UInt32.ofNat taken
  bound : ∃ fresh, (boundLabels c.insns).Perm (boundLabels c₀.insns ++ fresh) ∧ fresh.Nodup ∧
    fresh ⊆ freshLabels c₀.nextLabel taken

def loose (c₀ c : Code) (taken : Nat) : Nat :=
  risky (boundLabels c₀.insns) c.insns + spare (boundLabels c₀.insns) c₀.nextLabel taken

namespace Tally

variable {c₀ c c' : Code} {taken k : Nat} {l : Label}

theorem refl (c : Code) : Tally c c 0 where
  room := Nat.zero_le _
  next := (UInt32.add_zero c.nextLabel).symm
  bound := ⟨[], by simp, .nil, by simp⟩

theorem binds (h : Tally c₀ c taken) (known : l ∈ boundLabels c₀.insns) : c.Binds l := by
  obtain ⟨fresh, bound, _⟩ := h.bound
  exact mem_boundLabels.1 (bound.mem_iff.2 (List.mem_append_left _ known))

theorem once (h : Tally c₀ c taken) (new : l ∉ boundLabels c₀.insns) :
    (boundLabels c.insns).count l ≤ 1 := by
  obtain ⟨fresh, bound, distinct, _⟩ := h.bound
  rw [bound.count_eq, List.count_append, List.count_eq_zero_of_not_mem new, Nat.zero_add]
  exact List.nodup_iff_count_le_one.1 distinct l

theorem apart (h : Tally c₀ c taken) (room : taken + k ≤ 4294967296)
    (mem : l ∈ boundLabels c.insns) (new : l ∉ boundLabels c₀.insns) :
    l ∉ freshLabels c.nextLabel k := by
  obtain ⟨fresh, bound, _, among⟩ := h.bound
  have nodup : (freshLabels c₀.nextLabel (taken + k)).Nodup := nodup_freshLabels room
  rw [freshLabels_add, ← h.next] at nodup
  refine List.disjoint_of_nodup_append nodup (among ?_)
  exact (List.mem_append.1 (bound.mem_iff.1 mem)).resolve_left new

theorem take (h : Tally c₀ c taken) (room : taken + k ≤ 4294967296) {new : List Label}
    (bound : (boundLabels c'.insns).Perm (boundLabels c.insns ++ new)) (distinct : new.Nodup)
    (among : new ⊆ freshLabels c.nextLabel k)
    (next : c'.nextLabel = c.nextLabel + UInt32.ofNat k) : Tally c₀ c' (taken + k) := by
  obtain ⟨fresh, before, nodup, old⟩ := h.bound
  have numbers := freshLabels_add c₀.nextLabel taken k
  have apart : (freshLabels c₀.nextLabel (taken + k)).Nodup := nodup_freshLabels room
  rw [numbers, ← h.next] at apart
  have disjoint := List.disjoint_of_nodup_append apart
  refine ⟨room, ?_, fresh ++ new, ?_, ?_, ?_⟩
  · rw [next, h.next, UInt32.ofNat_add, UInt32.add_assoc]
  · rw [← List.append_assoc]
    exact bound.trans (before.append_right _)
  · refine List.nodup_append'.2 ⟨nodup, distinct, ?_⟩
    exact fun l mem again => disjoint (old mem) (among again)
  · rw [numbers, ← h.next]
    exact List.append_subset.2 ⟨fun l mem => List.mem_append_left _ (old mem),
      fun l mem => List.mem_append_right _ (among mem)⟩

section Widening

variable {steps : List (Insn × Option Int)}

theorem widen (h : Tally c₀ c taken) (whole : steps.map Prod.fst = c.insns)
    (insns : c'.insns = Widening.insnsFrom c.nextLabel steps)
    (next : c'.nextLabel = c.nextLabel + UInt32.ofNat (steps.countP Widening.splits))
    (room : taken + steps.countP Widening.splits ≤ 4294967296) :
    Tally c₀ c' (taken + steps.countP Widening.splits) := by
  refine h.take room ?_ (nodup_freshLabels (by omega)) (List.Subset.refl _) next
  rw [insns, ← whole]
  exact Widening.boundLabels_insnsFrom ..

theorem loose_widen (h : Tally c₀ c taken) (whole : steps.map Prod.fst = c.insns)
    (insns : c'.insns = Widening.insnsFrom c.nextLabel steps)
    (far : ∀ s ∈ steps, Widening.FarFrom (boundLabels c₀.insns) s)
    (room : taken + steps.countP Widening.splits ≤ 4294967296) :
    loose c₀ c' (taken + steps.countP Widening.splits) + steps.countP (·.2.isSome) ≤
      loose c₀ c taken := by
  have fewer := Widening.risky_insnsFrom far c.nextLabel
  have distinct : (freshLabels c.nextLabel (steps.countP Widening.splits)).Nodup :=
    nodup_freshLabels (by omega)
  have among : freshLabels c.nextLabel (steps.countP Widening.splits) ⊆
      freshLabels (c₀.nextLabel + UInt32.ofNat taken) (steps.countP Widening.splits) := by
    rw [h.next]
    exact List.Subset.refl _
  have given : _ ≤ spare (boundLabels c₀.insns) _ _ := spare_add room distinct among
  rw [loose, loose, insns, ← whole]
  omega

theorem newPlaces_widen (h : Tally c₀ c taken) (whole : steps.map Prod.fst = c.insns)
    (insns : c'.insns = Widening.insnsFrom c.nextLabel steps)
    (room : taken + steps.countP Widening.splits ≤ 4294967296) :
    (newPlaces (boundLabels c₀.insns) c.insns).ncard ≤
      (newPlaces (boundLabels c₀.insns) c'.insns).ncard := by
  rw [insns, ← whole]
  refine Widening.ncard_newPlaces_insnsFrom fun l mem new => ?_
  exact h.apart room (whole ▸ mem) new

end Widening

section Binding

variable {s : Labelling} {live : Nat → Bool} {count : Nat}

theorem bind (h : Tally c₀ c taken)
    (counted : s.Counted c.positions c.nextLabel c.executed.length)
    (insns : c'.insns =
      Labelling.bindPending s.pending 0 (Reframe.buryDead live count 0 c.insns []) [])
    (next : c'.nextLabel = s.next) (room : taken + s.pending.size ≤ 4294967296) :
    Tally c₀ c' (taken + s.pending.size) :=
  h.take room (bound_of_pending insns) counted.nodup_newLabels counted.newLabels_subset
    (next.trans counted.next)

theorem loose_bind (h : Tally c₀ c taken)
    (counted : s.Counted c.positions c.nextLabel c.executed.length)
    (insns : c'.insns =
      Labelling.bindPending s.pending 0 (Reframe.buryDead live count 0 c.insns []) [])
    (room : taken + s.pending.size ≤ 4294967296) :
    loose c₀ c' (taken + s.pending.size) +
        (s.newLabels c.executed.length).countP (· ∈ boundLabels c₀.insns) ≤ loose c₀ c taken := by
  have fewer : _ ≤ risky (boundLabels c₀.insns) _ := risky_buryDead live count 0 c.insns
  have given : _ ≤ spare (boundLabels c₀.insns) _ _ :=
    spare_add room counted.nodup_newLabels (h.next ▸ counted.newLabels_subset)
  rw [loose, loose, insns, risky_bindPending]
  omega

theorem newPlaces_bind (h : Tally c₀ c taken)
    (counted : s.Counted c.positions c.nextLabel c.executed.length)
    (insns : c'.insns =
      Labelling.bindPending s.pending 0 (Reframe.buryDead live count 0 c.insns []) []) :
    (newPlaces (boundLabels c₀.insns) c.insns).ncard +
        (s.newLabels c.executed.length).countP (· ∉ boundLabels c₀.insns) ≤
      (newPlaces (boundLabels c₀.insns) c'.insns).ncard ∧
    (newPlaces (boundLabels c₀.insns) c.insns).ncard + s.pending.size ≤
      executedIn c.insns + 1 := by
  have executed : executedIn c.insns = c.executed.length := List.countP_eq_length_filter
  have bare : ∀ {i : Nat} {l : Label}, i ∈ newPlaces (boundLabels c₀.insns) c.insns →
      s.pending[i]? ≠ some l := by
    rintro i l ⟨x, new, stands⟩ found
    refine (counted.places i l found).2 x (Code.find?_of_stands stands fun j again => ?_)
    exact again.eq_of_once stands (h.once new)
  have apart (q : Label → Bool) : Disjoint (newPlaces (boundLabels c₀.insns) c.insns)
      {i : Nat | ∃ l, q l = true ∧ s.pending[i]? = some l} := by
    refine Set.disjoint_left.2 ?_
    rintro i place ⟨l, _, found⟩
    exact bare place found
  have finite (q : Label → Bool) :
      {i : Nat | ∃ l, q l = true ∧ s.pending[i]? = some l}.Finite := by
    refine (Set.finite_Iic c.executed.length).subset ?_
    rintro i ⟨l, _, found⟩
    exact (counted.places i l found).1
  have joined (q : Label → Bool) := Set.ncard_union_eq (apart q) (finite_newPlaces _ _) (finite q)
  constructor
  · rw [← counted.ncard_pending, ← joined]
    refine Set.ncard_le_ncard ?_ (finite_newPlaces _ _)
    rintro i (⟨l, new, stands⟩ | ⟨l, new, found⟩)
    · exact ⟨l, new, insns ▸ (stands.buryDead live count).bindPending s.pending⟩
    · refine ⟨l, by simpa using new, insns ▸ stands_bindPending found (Nat.zero_le i) ?_⟩
      rw [countP_buryDead, Nat.zero_add, List.countP_eq_length_filter]
      exact (counted.places i l found).1
  · have whole := joined fun _ => true
    rw [counted.ncard_pending, List.countP_true, counted.length_newLabels] at whole
    rw [← whole]
    refine ncard_le_of_inside ?_
    rintro i (place | ⟨l, _, found⟩)
    · exact le_of_mem_newPlaces place
    · exact executed ▸ (counted.places i l found).1

end Binding

end Tally

end ClassWeave
