import Mathlib.Tactic.Common
import ClassWeave.Proofs.Body.Reaching
import ClassWeave.Proofs.Body.Relabelled
import ClassWeave.Proofs.Body.Repeating

/-!
# A body laid out a second time

What is read back of a body has its instructions in the same places. Against tables that know its
constants it is laid out as it was, no branch is out of reach, and nothing is added.
-/

set_option autoImplicit false

namespace ClassWeave

theorem Insn.label_of_relabel {insn : Insn} {move : Label → Label} {x : Label}
    (label : insn.sortKeys.relabel move = .label x) : ∃ y, insn = .label y ∧ move y = x := by
  cases insn with
  | label y =>
    injection label with same
    exact ⟨y, rfl, same⟩
  | _ => cases label

def Placed.Known (f : Tables) (p : Placed) : Prop :=
  (∀ v, p.insn = .ldc v → ∃ i, p.index = some i ∧ Tables.internLoadable v f = (.ok i, f)) ∧
    ((∀ v, p.insn ≠ .ldc v) → p.index = none)

namespace Layout

section

variable {f : Tables} {ps : List Placed} {l : Layout} {start finish : Nat}

theorem grows_known_place (insn : Insn) (l : Layout) :
    Grows Limits.none (place l insn) fun f l' =>
      (∀ p ∈ l.placed, p.Known f) → ∀ p ∈ l'.placed, p.Known f := by
  have bare : ∀ (f : Tables) (positions : Positions) (length : Nat),
      (∀ v, insn ≠ .ldc v) → (∀ p ∈ l.placed, p.Known f) →
      ∀ p ∈ (⟨⟨l.length, insn, none⟩ :: l.placed, positions, length⟩ : Layout).placed,
        p.Known f := fun f positions length other known =>
    List.forall_mem_cons.2 ⟨⟨fun v same => absurd same (other v), fun _ => rfl⟩, known⟩
  cases insn with
  | ldc v =>
    refine .bind (Tables.repeats_internLoadable v) fun i _ => .pure fun f found known => ?_
    refine List.forall_mem_cons.2 ⟨⟨fun w same => ?_, fun other => absurd rfl (other v)⟩, known⟩
    cases same
    exact ⟨i, rfl, found⟩
  | _ => exact .pure fun f => bare f _ _ nofun

theorem grows_known (insns : List Insn) :
    Grows Limits.none (ofInsns insns) fun f l => ∀ p ∈ l.placed, p.Known f := by
  refine .bind (.foldlM (P := fun f _ l => ∀ p ∈ l.placed, p.Known f)
    (fun _ i _ l => grows_known_place i l) [] empty) fun l _ => ?_
  exact .pure fun f known p hp => known nofun p (List.mem_reverse.1 hp)

theorem place_known {p : Placed} (known : p.Known f) (offset : p.offset = l.length) :
    place l p.insn f =
      (.ok ⟨p :: l.placed, p.mark l.positions, l.length + p.size⟩, f) := by
  obtain ⟨pc, insn, index⟩ := p
  dsimp only at offset
  subst offset
  cases insn with
  | ldc v =>
    obtain ⟨i, hi, found⟩ := known.1 v rfl
    cases hi
    show (Tables.internLoadable v >>= _) f = _
    rw [bind_ok_run found]
    rfl
  | _ =>
    cases known.2 nofun
    rfl

theorem foldlM_place (chain : Chain start ps finish) (known : ∀ p ∈ ps, p.Known f)
    (here : l.length = start) :
    (ps.map Placed.insn).foldlM place l f =
      (.ok ⟨ps.reverse ++ l.placed, ps.foldl Placed.mark l.positions, finish⟩, f) := by
  induction ps generalizing start l with
  | nil =>
    obtain ⟨placed, positions, length⟩ := l
    cases here
    cases chain
    rfl
  | cons p ps ih =>
    obtain ⟨first, rest⟩ := List.forall_mem_cons.1 known
    obtain ⟨offset, chain⟩ := chain
    rw [List.map_cons, List.foldlM_cons, bind_ok_run (place_known first (offset.trans here.symm)),
      ih chain rest (by rw [here]), List.reverse_cons, List.append_assoc]
    rfl

theorem ofInsns_of_chain (chain : Chain 0 ps finish) (known : ∀ p ∈ ps, p.Known f) :
    ofInsns (ps.map Placed.insn) f =
      (.ok ⟨ps, ps.foldl Placed.mark Positions.empty, finish⟩, f) := by
  have placed := foldlM_place (l := empty) chain known rfl
  unfold ofInsns
  rw [bind_ok_run placed]
  show (Except.ok (⟨(ps.reverse ++ []).reverse, _, _⟩ : Layout), f) = _
  rw [List.append_nil, List.reverse_reverse]
  rfl

theorem Chain.filter {keep : Insn → Bool} (h : Chain start ps finish)
    (marks : ∀ p ∈ ps, keep p.insn = false → p.insn.isExecuted = false) :
    Chain start (ps.filter fun p => keep p.insn) finish := by
  induction ps generalizing start with
  | nil => exact h
  | cons p ps ih =>
    obtain ⟨mark, marks⟩ := List.forall_mem_cons.1 marks
    obtain ⟨here, rest⟩ := h
    have rest := ih rest marks
    cases kept : keep p.insn with
    | true =>
      rw [List.filter_cons_of_pos (by exact kept)]
      exact ⟨here, rest⟩
    | false =>
      rw [List.filter_cons_of_neg (by exact Bool.eq_false_iff.1 kept)]
      rwa [Placed.size_mark (by rw [mark kept]; decide)] at rest

theorem Chain.map {g : Placed → Placed} (h : Chain start ps finish)
    (offset : ∀ p, (g p).offset = p.offset) (size : ∀ p, (g p).size = p.size) :
    Chain start (ps.map g) finish := by
  induction ps generalizing start with
  | nil => exact h
  | cons p ps ih =>
    refine ⟨(offset p).trans h.1, ?_⟩
    rw [size]
    exact ih h.2

end

variable {l : Layout} {keep : Insn → Bool} {move : Label → Label}

theorem size_renamed (p : Placed) :
    Placed.size { p with insn := p.insn.sortKeys.relabel move } = p.size := by
  obtain ⟨pc, insn, index⟩ := p
  cases insn with
  | tableSwitch fallback low high targets =>
    simp only [Placed.size, Insn.sortKeys, Insn.relabel, Insn.size, List.length_map]
  | lookupSwitch fallback pairs =>
    simp only [Placed.size, Insn.sortKeys, Insn.relabel, Insn.size, List.length_map,
      (sortOn_perm _ pairs).length_eq]
  | _ => rfl

theorem known_renamed {f : Tables} {p : Placed} (known : p.Known f) :
    Placed.Known f { p with insn := p.insn.sortKeys.relabel move } := by
  obtain ⟨pc, insn, index⟩ := p
  cases insn with
  | ldc v => exact known
  | _ => exact ⟨nofun, fun _ => known.2 nofun⟩

theorem ofInsns_renamed {insns : List Insn} {f : Tables} (laid : Laid insns l)
    (known : ∀ p ∈ l.placed, p.Known f)
    (marks : ∀ i, keep i = false → i.isExecuted = false) :
    ofInsns (((insns.filter keep).map Insn.sortKeys).map (Insn.relabel move)) f =
      (.ok (l.renamed keep move), f) := by
  have insns_eq : ((insns.filter keep).map Insn.sortKeys).map (Insn.relabel move) =
      (l.renamed keep move).placed.map Placed.insn := by
    rw [← laid.insns, List.filter_map, List.map_map, List.map_map, renamed, List.map_map]
    rfl
  have chain : Chain 0 (l.renamed keep move).placed l.length :=
    (laid.chain.filter fun p _ => marks p.insn).map (fun _ => rfl) size_renamed
  rw [insns_eq, ofInsns_of_chain chain fun p' hp' => ?_]
  · rfl
  · obtain ⟨p, hp, rfl⟩ := List.mem_map.1 hp'
    exact known_renamed (known p (List.mem_filter.1 hp).1)

theorem reaches_renamed {P : Label → Prop}
    (same : ∀ x, P x → (l.renamed keep move).positions.place (move x) = l.positions.place x)
    (targets : ∀ p ∈ l.placed, ∀ x ∈ p.insn.targets, P x) (reaches : l.Reaches) :
    (l.renamed keep move).Reaches := by
  intro p' hp'
  obtain ⟨p, hp, rfl⟩ := List.mem_map.1 hp'
  have mem := (List.mem_filter.1 hp).1
  have near := reaches p mem
  have targets := targets p mem
  obtain ⟨pc, insn, index⟩ := p
  cases insn with
  | jump op target =>
    dsimp only [Insn.sortKeys, Insn.relabel, farDistance] at near ⊢
    rwa [same target (targets target (List.mem_singleton_self _))]
  | _ => rfl

end Layout

namespace ClassFile

namespace Moving

variable {limits : Limits} {t : BodyTarget} {g : Tables} {b : BodyParts} {l : Layout}
  {zs : List ((Nat × Insn) × Nat)} (h : Moving limits (t.context g) b l zs)

include h

theorem moved_mention {keepFrames : Bool} {x : Label}
    (hx : x ∈ (b.code.arranged keepFrames).mentions) :
    ∃ k ∈ b.tables.marks, ∃ n ≤ l.length, x = Label.ofNat k ∧ Moves b l zs k n ∧
      l.positions.moved x = Label.ofNat n := by
  obtain ⟨k, hk, rfl⟩ := h.marked_mention hx
  obtain ⟨n, hn⟩ := h.exists_moves hk
  exact ⟨k, hk, n, (h.le_length hn).2, rfl, hn, Positions.moved_of_find? (h.find?_eq hk hn)⟩

theorem find?_renamed (fits : l.length ≤ 65535) {keepFrames : Bool} {k n : Nat}
    (hk : k ∈ b.tables.marks) (hn : Moves b l zs k n)
    (named : Label.ofNat k ∈ (b.code.arranged keepFrames).mentions) :
    (l.renamed (b.code.arranged keepFrames).names l.positions.moved).positions.find?
      (Label.ofNat n) = some n := by
  let kept := b.code.arranged keepFrames
  have moved : l.positions.moved (Label.ofNat k) = Label.ofNat n :=
    Positions.moved_of_find? (h.find?_eq hk hn)
  obtain ⟨p, hp, mark⟩ : ∃ p ∈ l.placed, p.insn = .label (Label.ofNat k) := by
    have mem := h.label_mem hk
    rw [← h.laid.insns] at mem
    exact List.mem_map.1 mem
  have kept_mark : kept.names p.insn = true := by
    rw [mark]
    exact List.contains_iff_mem.2 named
  have bound : ∃ m, (l.renamed kept.names l.positions.moved).positions.find? (Label.ofNat n) =
      some m := by
    refine Layout.find?_marks_of_mem (.inr ⟨_,
      List.mem_map_of_mem (List.mem_filter.2 ⟨hp, kept_mark⟩), ?_⟩)
    rw [mark, ← moved]
    rfl
  obtain ⟨m, found⟩ := bound
  -- every mark with that name stands at `n`, since labels move apart
  rcases Layout.mem_of_find?_marks found with none | ⟨q', hq', label, offset⟩
  · rw [Positions.find?_empty] at none
    cases none
  · obtain ⟨q, hq, rfl⟩ := List.mem_map.1 hq'
    obtain ⟨y, mark, same⟩ := Insn.label_of_relabel label
    obtain ⟨j, hj, rfl, hm⟩ := h.moves_of_placed (List.mem_filter.1 hq).1 mark
    have offset : q.offset = m := offset
    rw [Positions.moved_of_find? (h.find?_eq hj hm), offset] at same
    have := (h.le_length hm).2
    have := (h.le_length hn).2
    rw [found, Label.ofNat_inj (by omega) (by omega) same]

theorem follows (fits : l.length ≤ 65535) {keepFrames : Bool} :
    l.positions.Follows
      (l.renamed (b.code.arranged keepFrames).names l.positions.moved).positions
      l.positions.moved (· ∈ (b.code.arranged keepFrames).mentions) where
  place x hx := by
    obtain ⟨k, hk, n, _, rfl, hn, moved⟩ := h.moved_mention hx
    rw [moved, Positions.place_eq_ok.2 (h.find?_renamed fits hk hn hx),
      Positions.place_eq_ok.2 (h.find?_eq hk hn)]
  injective x y hx hy same := by
    obtain ⟨j, _, m, hm_le, rfl, hm, first⟩ := h.moved_mention hx
    obtain ⟨k, _, n, hn_le, rfl, hn, second⟩ := h.moved_mention hy
    rw [first, second] at same
    rw [Label.ofNat_inj (by omega) (by omega) same] at hm
    rw [h.injective hm hn]

theorem settle_readBack (fits : l.length ≤ 65535) (reaches : l.Reaches) {f : Tables}
    (known : ∀ p ∈ l.placed, p.Known f) (t' : BodyTarget) :
    t'.settle (t.readBack b.code l) f = (.ok (t.readBack b.code l,
      l.renamed (b.code.arranged t.withFrames).names l.positions.moved), f) := by
  have again : Layout.ofInsns ((b.code.stored t.withFrames).relabel l.positions.moved).insns f =
      (.ok (l.renamed (b.code.arranged t.withFrames).names l.positions.moved), f) :=
    Layout.ofInsns_renamed h.laid known fun _ => Code.mark_of_unnamed
  rw [h.readBack_eq fits]
  refine BodyTarget.settle_reaches rfl again ?_
  exact Layout.reaches_renamed (h.follows fits).place h.laid.mentioned reaches

theorem encodeSettled_readBack (fits : l.length ≤ 65535) :
    t.encodeSettled (t.readBack b.code l)
      (l.renamed (b.code.arranged t.withFrames).names l.positions.moved) =
        t.encodeSettled b.code l := by
  rw [h.readBack_eq fits]
  exact BodyTarget.encodeSettled_relabel h.laid (h.follows fits)

end Moving

end ClassFile

end ClassWeave
