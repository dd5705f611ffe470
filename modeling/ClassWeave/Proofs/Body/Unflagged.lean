import Mathlib.Tactic.Common
import ClassWeave.Proofs.Body.Moved
import ClassWeave.Proofs.Body.Reaching

/-!
# Bodies without the flags of field handles

With the flags of its field handles cleared a body is laid out in the same places and written in
the same bytes, as long as no branch has to be widened. What a reader decoded it resolves again.
-/

set_option autoImplicit false

namespace ClassWeave

def Placed.unflagged (p : Placed) : Placed := { p with insn := p.insn.unflagged }

def Layout.unflagged (l : Layout) : Layout := { l with placed := l.placed.map Placed.unflagged }

def Code.unflagged (c : Code) : Code := { c with insns := c.insns.map Insn.unflagged }

namespace Layout

variable (l : Layout)

theorem place_unflagged (insn : Insn) :
    place l.unflagged insn.unflagged = unflagged <$> place l insn := by
  cases insn with
  | ldc v =>
    have size : ∀ i, Insn.size (.ldc v.unflagged) l.length i = Insn.size (.ldc v) l.length i :=
      (Insn.ldc v).size_unflagged l.length
    dsimp only [Insn.unflagged, place]
    rw [Tables.internLoadable_unflagged, map_bind]
    refine congrArg _ (funext fun i => ?_)
    show Pure.pure (⟨_, _, l.length + Insn.size (.ldc v.unflagged) l.length (some i)⟩ : Layout) = _
    rw [size]
    rfl
  | _ => rfl

theorem foldlM_place_unflagged (insns : List Insn) :
    (insns.map Insn.unflagged).foldlM place l.unflagged = unflagged <$> insns.foldlM place l := by
  induction insns generalizing l with
  | nil => rfl
  | cons insn insns ih =>
    rw [List.map_cons, List.foldlM_cons, List.foldlM_cons, place_unflagged, bind_map_left, map_bind]
    exact congrArg _ (funext ih)

theorem ofInsns_unflagged (insns : List Insn) :
    ofInsns (insns.map Insn.unflagged) = unflagged <$> ofInsns insns := by
  have folded := foldlM_place_unflagged empty insns
  unfold ofInsns
  rw [show empty = empty.unflagged from rfl, folded, bind_map_left, map_bind]
  refine congrArg _ (funext fun l => ?_)
  rw [map_pure, unflagged, unflagged]
  dsimp only
  rw [List.map_reverse]

variable {l}

theorem reaches_unflagged (reaches : l.Reaches) : l.unflagged.Reaches := by
  intro p' hp'
  obtain ⟨p, hp, rfl⟩ := List.mem_map.1 hp'
  have near := reaches p hp
  obtain ⟨pc, insn, index⟩ := p
  cases insn <;> first | rfl | exact near

theorem emitInsn_unflagged (p : Placed) : l.unflagged.emitInsn p.unflagged = l.emitInsn p := by
  obtain ⟨pc, insn, index⟩ := p
  cases insn with
  | callSite name desc b =>
    dsimp only [Placed.unflagged, Insn.unflagged, emitInsn]
    rw [Tables.internCallSite_unflagged]
  | ldc v =>
    dsimp only [Placed.unflagged, Insn.unflagged, emitInsn, emitLdc]
    rw [v.isWide_unflagged]
  | _ => rfl

theorem emit_unflagged : l.unflagged.emit = l.emit := by
  have each : l.unflagged.placed.mapM l.unflagged.emitInsn = l.placed.mapM l.emitInsn := by
    show (l.placed.map Placed.unflagged).mapM _ = _
    rw [List.mapM_map]
    exact congrArg (fun k => l.placed.mapM k) (funext emitInsn_unflagged)
  unfold emit
  rw [each]

theorem encodeLines_unflagged : ClassFile.encodeLines l.unflagged = ClassFile.encodeLines l := by
  have same : ClassFile.storedLines l.unflagged = ClassFile.storedLines l := by
    unfold ClassFile.storedLines unflagged
    rw [List.filterMap_map]
    refine List.filterMap_congr fun p _ => ?_
    obtain ⟨pc, insn, index⟩ := p
    cases insn <;> rfl
  rw [ClassFile.encodeLines_eq, ClassFile.encodeLines_eq, same]

end Layout

theorem InsnDecode.sane_unflagged {s : Source} {limits : Limits} {insn : Insn}
    (h : Sane s limits insn) : Sane s limits insn.unflagged where
  executed := by rw [Insn.isExecuted_unflagged, h.executed]
  shaped := Insn.shaped_unflagged h.shaped
  plain op target same := by
    cases insn <;> first | exact h.plain op target same | cases same
  inside := by
    rw [Insn.targets_unflagged]
    exact h.inside
  within := Insn.within_unflagged h.within
  resolvable _ := h.unflagged
  unflagged := by
    rw [Insn.unflagged_unflagged]
    exact h.unflagged

namespace ClassFile

section

variable {t : BodyTarget} {c : Code} {l : Layout} {s u : Tables}

theorem encodeSettled_unflagged :
    t.encodeSettled c.unflagged l.unflagged = t.encodeSettled c l := by
  unfold BodyTarget.encodeSettled
  rw [Layout.emit_unflagged, Layout.encodeLines_unflagged]
  rfl

theorem settle_unflagged (framed : c.frames.isSome = true)
    (run : Layout.ofInsns c.insns s = (.ok l, u)) (reaches : l.Reaches) :
    t.settle c.unflagged s = (.ok (c.unflagged, l.unflagged), u) := by
  refine BodyTarget.settle_reaches framed ?_ (Layout.reaches_unflagged reaches)
  show Layout.ofInsns (c.insns.map _) s = _
  rw [Layout.ofInsns_unflagged]
  show ExceptT.run (Layout.unflagged <$> Layout.ofInsns c.insns) s = _
  rw [ExceptT.run_map]
  show (fun r => (Except.map Layout.unflagged r.1, r.2)) (Layout.ofInsns c.insns s) = _
  rw [run]
  rfl

end

def BodyParts.unflagged (b : BodyParts) : BodyParts :=
  { b with decoded := b.decoded.map fun d => (d.1, d.2.unflagged) }

theorem BodyParts.code_unflagged (b : BodyParts) : b.unflagged.code = b.code.unflagged := by
  have marks : ∀ pc, (marksAt b.tables pc).map Insn.unflagged = marksAt b.tables pc := by
    intro pc
    unfold marksAt
    rw [List.map_append, List.map_map]
    congr 1
    split <;> rfl
  have last : (lastMark b.tables b.length).map Insn.unflagged = lastMark b.tables b.length := by
    unfold lastMark
    split <;> rfl
  have insns : withMarks b.unflagged.decoded b.unflagged.tables b.unflagged.length =
      (withMarks b.decoded b.tables b.length).map Insn.unflagged := by
    show withMarks (b.decoded.map _) b.tables b.length = _
    rw [withMarks_eq, withMarks_eq, List.map_append, last, List.map_flatMap,
      List.flatMap_map]
    simp only [List.map_append, marks, List.map_singleton]
  show assembled _ _ _ _ _ _ = _
  unfold assembled
  rw [insns]
  rfl

variable {limits : Limits} {ctx : BodyContext} {b : BodyParts}

theorem BodyParts.Sane.unflagged (h : b.Sane limits ctx) : b.unflagged.Sane limits ctx where
  short := h.short
  decoded := {
    ascending := by
      show (List.map _ _).Pairwise _
      rw [List.pairwise_map]
      exact h.decoded.ascending
    inside := List.forall_mem_map.2 h.decoded.inside
    sane := List.forall_mem_map.2 fun d hd => InsnDecode.sane_unflagged (h.decoded.sane d hd) }
  handlerCount := h.handlerCount
  handlers := h.handlers
  tables := h.tables
  started n hn := by
    refine h.started n (mem_startMarks.2 ((mem_startMarks.1 hn).imp_left ?_))
    rintro ⟨x, hx, same⟩
    obtain ⟨d', hd', hx⟩ := List.mem_flatMap.1 hx
    obtain ⟨d, hd, rfl⟩ := List.mem_map.1 hd'
    dsimp only at hx
    rw [Insn.targets_unflagged] at hx
    exact ⟨x, List.mem_flatMap.2 ⟨d, hd, hx⟩, same⟩
  boundary n hn := (h.boundary n hn).imp_right fun ⟨d, hd, same⟩ =>
    ⟨_, List.mem_map_of_mem hd, same⟩

end ClassFile

end ClassWeave
