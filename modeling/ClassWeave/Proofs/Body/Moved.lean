import Mathlib.Data.List.Forall2
import Mathlib.Tactic.Common
import ClassWeave.Proofs.Body
import ClassWeave.Proofs.Decoding.Bodies

/-!
# Where decoded instructions move

A decoded body is laid out anew with each instruction at an offset of its own. Old and new offsets
stand in one order, so every label moves by the same ascending map.
-/

set_option autoImplicit false

namespace ClassWeave

namespace Layout

theorem Chain.marks {start finish : Nat} {ps : List Placed} (h : Chain start ps finish)
    (flat : ∀ p ∈ ps, ¬ p.insn.isExecuted = true) :
    finish = start ∧ ∀ p ∈ ps, p.offset = start := by
  induction ps generalizing start with
  | nil => exact ⟨h, fun p hp => nomatch hp⟩
  | cons p ps ih =>
    obtain ⟨here, rest⟩ := h
    rw [Placed.size_mark (flat p (List.mem_cons_self ..)), Nat.add_zero] at rest
    obtain ⟨last, others⟩ := ih rest fun q hq => flat q (List.mem_cons_of_mem _ hq)
    refine ⟨last, fun q hq => ?_⟩
    rcases List.mem_cons.1 hq with rfl | hq
    · exact here
    · exact others q hq

end Layout

namespace ClassFile

def marksAt (t : BodyTables) (pc : Nat) : List Insn :=
  (if t.marks.contains pc then [Insn.label (Label.ofNat pc)] else []) ++
    (t.linesAt pc).map Insn.line

def lastMark (t : BodyTables) (length : Nat) : List Insn :=
  if t.marks.contains length then [.label (Label.ofNat length)] else []

theorem withMarks_eq (decoded : List (Nat × Insn)) (t : BodyTables) (length : Nat) :
    withMarks decoded t length =
      decoded.flatMap (fun d => marksAt t d.1 ++ [d.2]) ++ lastMark t length := by
  unfold withMarks lastMark
  dsimp only
  split
  · rfl
  · exact (List.append_nil _).symm

theorem marksAt_flat {t : BodyTables} {pc : Nat} {i : Insn} (hi : i ∈ marksAt t pc) :
    ¬ i.isExecuted = true := by
  unfold marksAt at hi
  rcases List.mem_append.1 hi with hi | hi
  · split at hi
    · rw [List.mem_singleton.1 hi]
      nofun
    · cases hi
  · obtain ⟨n, _, rfl⟩ := List.mem_map.1 hi
    nofun

theorem lastMark_flat {t : BodyTables} {length : Nat} {i : Insn} (hi : i ∈ lastMark t length) :
    ¬ i.isExecuted = true := by
  unfold lastMark at hi
  split at hi
  · rw [List.mem_singleton.1 hi]
    nofun
  · cases hi

def spots (ps : List Placed) : List (Nat × Insn) := ps.map fun p => (p.offset, p.insn)

/-- Decoded instructions with their new offsets: the marks of each stand at its offset, and the
mark at the end stands at the end. -/
structure MovesTo (t : BodyTables) (length : Nat) (ps : List Placed) (start finish : Nat)
    (zs : List ((Nat × Insn) × Nat)) : Prop where
  spots : spots ps = zs.flatMap (fun z => (marksAt t z.1.1 ++ [z.1.2]).map (z.2, ·)) ++
    (lastMark t length).map (finish, ·)
  ascending : zs.Pairwise (·.2 < ·.2)
  inside : ∀ z ∈ zs, start ≤ z.2 ∧ z.2 < finish

theorem spots_of_marks {ps : List Placed} {insns : List Insn} {offset : Nat}
    (same : ps.map Placed.insn = insns) (here : ∀ p ∈ ps, p.offset = offset) :
    spots ps = insns.map (offset, ·) := by
  rw [← same, List.map_map, spots]
  refine List.map_congr_left fun p hp => ?_
  rw [Function.comp, here p hp]

theorem exists_movesTo {t : BodyTables} {length : Nat} {decoded : List (Nat × Insn)}
    (executed : ∀ d ∈ decoded, d.2.isExecuted = true) {ps : List Placed} {start finish : Nat}
    (chain : Layout.Chain start ps finish)
    (insns : ps.map Placed.insn =
      decoded.flatMap (fun d => marksAt t d.1 ++ [d.2]) ++ lastMark t length) :
    ∃ zs, zs.map Prod.fst = decoded ∧ MovesTo t length ps start finish zs := by
  induction decoded generalizing ps start with
  | nil =>
    rw [List.flatMap_nil, List.nil_append] at insns
    obtain ⟨last, here⟩ := chain.marks fun p hp => lastMark_flat (insns ▸ List.mem_map_of_mem hp)
    refine ⟨[], rfl, ?_, .nil, by simp⟩
    rw [List.flatMap_nil, List.nil_append, last]
    exact spots_of_marks insns here
  | cons d decoded ih =>
    rw [List.flatMap_cons, List.append_assoc, List.append_assoc] at insns
    obtain ⟨marks, rest, rfl, hmarks, hrest⟩ := List.map_eq_append_iff.1 insns
    obtain ⟨p, ps, rfl, hp, hps⟩ := List.map_eq_cons_iff.1 hrest
    obtain ⟨middle, first, second⟩ := Layout.chain_append.1 chain
    obtain ⟨rfl, here⟩ := first.marks fun p hp => marksAt_flat (hmarks ▸ List.mem_map_of_mem hp)
    obtain ⟨offset, rest⟩ := second
    obtain ⟨zs, fsts, moves⟩ := ih (fun e he => executed e (List.mem_cons_of_mem _ he)) rest hps
    have size := Placed.size_pos (hp ▸ executed d (List.mem_cons_self ..))
    have le := rest.le
    refine ⟨(d, middle) :: zs, by rw [List.map_cons, fsts], ?_, ?_, ?_⟩
    · have front := spots_of_marks hmarks here
      have behind := moves.spots
      rw [spots] at front behind ⊢
      rw [List.map_append, List.map_cons, front, behind, List.flatMap_cons, offset, hp]
      simp
    · refine List.pairwise_cons.2 ⟨fun z hz => ?_, moves.ascending⟩
      have := (moves.inside z hz).1
      show middle < z.2
      omega
    · intro z hz
      rcases List.mem_cons.1 hz with rfl | hz
      · exact ⟨Nat.le_refl _, by show middle < finish; omega⟩
      · have := moves.inside z hz
        omega

/-- A decoded body that is laid out anew, with the new offsets of its instructions. -/
structure Moving (limits : Limits) (ctx : BodyContext) (b : BodyParts) (l : Layout)
    (zs : List ((Nat × Insn) × Nat)) : Prop where
  sane : b.Sane limits ctx
  laid : Layout.Laid b.code.insns l
  decoded : zs.map Prod.fst = b.decoded
  moves : MovesTo b.tables b.length l.placed 0 l.length zs

def Moves (b : BodyParts) (l : Layout) (zs : List ((Nat × Insn) × Nat)) (k n : Nat) : Prop :=
  (∃ z ∈ zs, z.1.1 = k ∧ z.2 = n) ∨ (k = b.length ∧ n = l.length)

theorem label_mem_marksAt {t : BodyTables} {pc : Nat} {x : Label} :
    Insn.label x ∈ marksAt t pc ↔ pc ∈ t.marks ∧ x = Label.ofNat pc := by
  unfold marksAt
  rw [List.mem_append, List.mem_map]
  constructor
  · rintro (hx | ⟨n, _, same⟩)
    · split at hx
      · rename_i marked
        cases List.mem_singleton.1 hx
        exact ⟨Std.TreeSet.contains_iff_mem.1 marked, rfl⟩
      · cases hx
    · cases same
  · rintro ⟨marked, rfl⟩
    rw [if_pos (Std.TreeSet.contains_iff_mem.2 marked)]
    exact .inl (List.mem_singleton.2 rfl)

theorem label_mem_lastMark {t : BodyTables} {length : Nat} {x : Label} :
    Insn.label x ∈ lastMark t length ↔ length ∈ t.marks ∧ x = Label.ofNat length := by
  unfold lastMark
  constructor
  · intro hx
    split at hx
    · rename_i marked
      cases List.mem_singleton.1 hx
      exact ⟨Std.TreeSet.contains_iff_mem.1 marked, rfl⟩
    · cases hx
  · rintro ⟨marked, rfl⟩
    rw [if_pos (Std.TreeSet.contains_iff_mem.2 marked)]
    exact List.mem_singleton.2 rfl

variable {limits : Limits} {ctx : BodyContext} {b : BodyParts} {l : Layout}
  {zs : List ((Nat × Insn) × Nat)}

theorem exists_moving (sane : b.Sane limits ctx) (laid : Layout.Laid b.code.insns l) :
    ∃ zs, Moving limits ctx b l zs := by
  have insns : l.placed.map Placed.insn = _ := laid.insns.trans (withMarks_eq ..)
  obtain ⟨zs, decoded, moves⟩ :=
    exists_movesTo (fun d hd => (sane.decoded.sane d hd).executed) laid.chain insns
  exact ⟨zs, sane, laid, decoded, moves⟩

namespace Moving

variable (h : Moving limits ctx b l zs)

include h

theorem mem_decoded {z : (Nat × Insn) × Nat} (hz : z ∈ zs) : z.1 ∈ b.decoded := by
  rw [← h.decoded]
  exact List.mem_map_of_mem hz

theorem ordered : zs.Pairwise fun z w => z.1.1 < w.1.1 ∧ z.2 < w.2 := by
  have olds := h.sane.decoded.ascending
  rw [← h.decoded, List.pairwise_map] at olds
  exact olds.and h.moves.ascending

theorem inside {z : (Nat × Insn) × Nat} (hz : z ∈ zs) : z.1.1 < b.length ∧ z.2 < l.length :=
  ⟨h.sane.decoded.inside z.1 (h.mem_decoded hz), (h.moves.inside z hz).2⟩

theorem lt_iff {k n k' n' : Nat} (hk : Moves b l zs k n) (hk' : Moves b l zs k' n') :
    k < k' ↔ n < n' := by
  rcases hk with ⟨z, hz, rfl, rfl⟩ | ⟨rfl, rfl⟩
  · rcases hk' with ⟨w, hw, rfl, rfl⟩ | ⟨rfl, rfl⟩
    · rcases order_of_pairwise h.ordered hz hw with rfl | ⟨old, new⟩ | ⟨old, new⟩
      · simp
      · simp [old, new]
      · omega
    · simp [h.inside hz]
  · rcases hk' with ⟨w, hw, rfl, rfl⟩ | ⟨rfl, rfl⟩
    · have := h.inside hw
      omega
    · simp

theorem unique {k n n' : Nat} (hk : Moves b l zs k n) (hk' : Moves b l zs k n') : n = n' := by
  have first := h.lt_iff hk hk'
  have second := h.lt_iff hk' hk
  omega

theorem injective {k k' n : Nat} (hk : Moves b l zs k n) (hk' : Moves b l zs k' n) : k = k' := by
  have first := h.lt_iff hk hk'
  have second := h.lt_iff hk' hk
  omega

theorem le_length {k n : Nat} (hk : Moves b l zs k n) : k ≤ b.length ∧ n ≤ l.length := by
  rcases hk with ⟨z, hz, rfl, rfl⟩ | ⟨rfl, rfl⟩
  · exact (h.inside hz).imp Nat.le_of_lt Nat.le_of_lt
  · exact ⟨Nat.le_refl _, Nat.le_refl _⟩

theorem exists_moves {k : Nat} (hk : k ∈ b.tables.marks) : ∃ n, Moves b l zs k n := by
  rcases h.sane.boundary k hk with rfl | ⟨d, hd, rfl⟩
  · exact ⟨l.length, .inr ⟨rfl, rfl⟩⟩
  · rw [← h.decoded] at hd
    obtain ⟨z, hz, rfl⟩ := List.mem_map.1 hd
    exact ⟨z.2, .inl ⟨z, hz, rfl, rfl⟩⟩

theorem small {k : Nat} (hk : k ∈ b.tables.marks) : k < 4294967296 := by
  obtain ⟨n, hn⟩ := h.exists_moves hk
  have := (h.le_length hn).1
  have := h.sane.short
  omega

theorem label_mem {k : Nat} (hk : k ∈ b.tables.marks) :
    Insn.label (Label.ofNat k) ∈ b.code.insns := by
  show _ ∈ withMarks b.decoded b.tables b.length
  rw [withMarks_eq, List.mem_append]
  rcases h.sane.boundary k hk with rfl | ⟨d, hd, rfl⟩
  · exact .inr (label_mem_lastMark.2 ⟨hk, rfl⟩)
  · exact .inl (List.mem_flatMap.2 ⟨d, hd, List.mem_append_left _ (label_mem_marksAt.2 ⟨hk, rfl⟩)⟩)

theorem moves_of_placed {p : Placed} (hp : p ∈ l.placed) {x : Label} (hx : p.insn = .label x) :
    ∃ k ∈ b.tables.marks, x = Label.ofNat k ∧ Moves b l zs k p.offset := by
  have spot : (p.offset, Insn.label x) ∈ spots l.placed := by
    rw [← hx]
    exact List.mem_map.2 ⟨p, hp, rfl⟩
  rw [h.moves.spots, List.mem_append] at spot
  rcases spot with spot | spot
  · obtain ⟨z, hz, spot⟩ := List.mem_flatMap.1 spot
    obtain ⟨i, hi, same⟩ := List.mem_map.1 spot
    obtain ⟨offset, rfl⟩ := Prod.mk.inj same
    rcases List.mem_append.1 hi with hi | hi
    · obtain ⟨marked, rfl⟩ := label_mem_marksAt.1 hi
      exact ⟨z.1.1, marked, rfl, .inl ⟨z, hz, rfl, offset⟩⟩
    · have executed := (h.sane.decoded.sane z.1 (h.mem_decoded hz)).executed
      rw [← List.mem_singleton.1 hi] at executed
      cases executed
  · obtain ⟨i, hi, same⟩ := List.mem_map.1 spot
    obtain ⟨offset, rfl⟩ := Prod.mk.inj same
    obtain ⟨marked, rfl⟩ := label_mem_lastMark.1 hi
    exact ⟨b.length, marked, rfl, .inr ⟨rfl, offset.symm⟩⟩

theorem find?_eq {k n : Nat} (hk : k ∈ b.tables.marks) (hn : Moves b l zs k n) :
    l.positions.find? (Label.ofNat k) = some n := by
  obtain ⟨n', found⟩ := h.laid.find?_of_mem (h.label_mem hk)
  obtain ⟨p, hp, label, rfl⟩ := h.laid.mem_of_find? found
  obtain ⟨k', marked, same, moved⟩ := h.moves_of_placed hp label
  rw [Label.ofNat_inj (h.small hk) (h.small marked) same] at hn
  rw [found, h.unique hn moved]

theorem offset_eq {k n : Nat} (hk : k ∈ b.tables.marks) (hn : Moves b l zs k n) :
    l.positions.offset (Label.ofNat k) = n := by
  rw [Positions.offset, h.find?_eq hk hn]
  rfl

theorem moved_lt (fits : l.length ≤ 65535) {x y : Label} (hx : Insn.label x ∈ b.code.insns)
    (hy : Insn.label y ∈ b.code.insns) (lt : x.number < y.number) :
    (l.positions.moved x).number < (l.positions.moved y).number := by
  have marked : ∀ z, Insn.label z ∈ b.code.insns →
      ∃ k n, k ∈ b.tables.marks ∧ z = Label.ofNat k ∧ Moves b l zs k n := by
    intro z hz
    rw [← h.laid.insns] at hz
    obtain ⟨p, hp, label⟩ := List.mem_map.1 hz
    obtain ⟨k, hk, same, moved⟩ := h.moves_of_placed hp label
    exact ⟨k, p.offset, hk, same, moved⟩
  obtain ⟨j, m, hj, rfl, hm⟩ := marked x hx
  obtain ⟨k, n, hk, rfl, hn⟩ := marked y hy
  have old := UInt32.lt_iff_toNat_lt.1 lt
  rw [Label.toNat_ofNat (h.small hj), Label.toNat_ofNat (h.small hk)] at old
  have new := (h.lt_iff hm hn).1 old
  have bound := (h.le_length hn).2
  rw [Positions.moved_of_find? (h.find?_eq hj hm), Positions.moved_of_find? (h.find?_eq hk hn),
    UInt32.lt_iff_toNat_lt, Label.toNat_ofNat (by omega), Label.toNat_ofNat (by omega)]
  exact new

end Moving

end ClassFile

end ClassWeave
