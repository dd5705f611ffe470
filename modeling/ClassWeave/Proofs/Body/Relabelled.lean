import Mathlib.Tactic.Common
import ClassWeave.Proofs.Analysis.Sites
import ClassWeave.Proofs.Body.Rewritten

/-!
# Bodies under other labels

A body names places by labels, and what is written of it depends on the places alone. Under other
labels that stand in the same places every part of it is written in the same bytes, with the same
requests to the tables.
-/

set_option autoImplicit false

namespace ClassWeave

section Lists

variable {α β : Type}

section

variable {γ : Type} {m : Type → Type} [Monad m] [LawfulMonad m]

theorem mapM_map_fmap {δ : Type} {g : α → γ} {r : β → δ} {k : α → m β} {k' : γ → m δ}
    {as : List α} (same : ∀ a ∈ as, k' (g a) = r <$> k a) :
    (as.map g).mapM k' = List.map r <$> as.mapM k := by
  induction as with
  | nil => simp
  | cons a as ih =>
    rw [List.map_cons, List.mapM_cons, List.mapM_cons, same a (List.mem_cons_self ..),
      ih fun b hb => same b (List.mem_cons_of_mem a hb)]
    simp

theorem mapM_map_congr {g : α → γ} {k : α → m β} {k' : γ → m β} {as : List α}
    (same : ∀ a ∈ as, k' (g a) = k a) : (as.map g).mapM k' = as.mapM k := by
  have one := mapM_map_fmap (r := id) fun a ha => (same a ha).trans (id_map (k a)).symm
  rwa [List.map_id_fun, id_map] at one

theorem flatten_mapM_filter {keep : α → Bool} {k : α → m (List β)} {as : List α}
    (none : ∀ a ∈ as, keep a = false → k a = pure []) :
    List.flatten <$> (as.filter keep).mapM k = List.flatten <$> as.mapM k := by
  induction as with
  | nil => rfl
  | cons a as ih =>
    have rest := ih fun b hb => none b (List.mem_cons_of_mem a hb)
    have split : ∀ bs : m (List (List β)), (do let b ← k a; let bs ← bs; pure (b :: bs).flatten) =
        (do let b ← k a; let bs ← List.flatten <$> bs; pure (b ++ bs)) := by simp
    cases kept : keep a with
    | true =>
      rw [List.filter_cons_of_pos kept, List.mapM_cons, List.mapM_cons]
      have first := split ((as.filter keep).mapM k)
      rw [rest, ← split (as.mapM k)] at first
      simpa using first
    | false =>
      rw [List.filter_cons_of_neg (by rw [kept]; decide), rest, List.mapM_cons,
        none a (List.mem_cons_self ..) kept]
      simp

end

section

variable {σ : Type}

theorem lift_bind_congr {x : Except WriteError α} {k k' : α → GrowthOf σ β}
    (same : ∀ a, x = .ok a → k a = k' a) :
    ((liftM x : GrowthOf σ α) >>= k) = (liftM x : GrowthOf σ α) >>= k' := by
  cases x with
  | error e => rfl
  | ok a => exact same a rfl

theorem lift_map_bind {γ : Type} (x : Except WriteError α) (f : α → β) (k : β → GrowthOf σ γ) :
    ((liftM (f <$> x) : GrowthOf σ β) >>= k) =
      (liftM x : GrowthOf σ α) >>= fun a => k (f a) := by
  cases x <;> rfl

end

variable {key : α → Int} {key' : β → Int} {g : α → β}

theorem insertOn_map (same : ∀ a, key' (g a) = key a) (a : α) (l : List α) :
    insertOn key' (g a) (l.map g) = (insertOn key a l).map g := by
  induction l with
  | nil => rfl
  | cons b rest ih =>
    rw [List.map_cons, insertOn, insertOn, same, same]
    split
    · rfl
    · rw [ih, List.map_cons]

theorem sortOn_map (same : ∀ a, key' (g a) = key a) (l : List α) :
    sortOn key' (l.map g) = (sortOn key l).map g := by
  induction l with
  | nil => rfl
  | cons a rest ih => rw [List.map_cons, sortOn, sortOn, ih, insertOn_map same]

theorem dedupAfter_map (same : ∀ a, key' (g a) = key a) (a : α) (l : List α) :
    dedupAfter key' (g a) (l.map g) = (dedupAfter key a l).map g := by
  induction l generalizing a with
  | nil => rfl
  | cons b rest ih =>
    rw [List.map_cons, dedupAfter, dedupAfter, same, same]
    split
    · exact ih a
    · rw [ih, List.map_cons]

theorem dedupOn_sortOn_map (same : ∀ a, key' (g a) = key a) (l : List α) :
    dedupOn key' (sortOn key' (l.map g)) = (dedupOn key (sortOn key l)).map g := by
  rw [sortOn_map same]
  generalize sortOn key l = l
  cases l with
  | nil => rfl
  | cons a rest => exact dedupAfter_map same a rest

end Lists

theorem Code.mark_of_unnamed {c : Code} {i : Insn} (unnamed : c.names i = false) :
    i.isExecuted = false := by
  cases i <;> first | rfl | cases unnamed

theorem Layout.Laid.mentioned {c : Code} {l : Layout} (laid : Laid c.insns l) {keepFrames : Bool} :
    ∀ p ∈ l.placed, ∀ x ∈ p.insn.targets, x ∈ (c.arranged keepFrames).mentions := by
  intro p hp x hx
  have mem : p.insn ∈ c.insns := laid.insns ▸ List.mem_map_of_mem hp
  exact List.mem_append_left _ (List.mem_append_left _ (List.mem_append_left _
    (List.mem_flatMap.2 ⟨p.insn, mem, hx⟩)))

/-- The labels with `P` stand where they stood, under names that keep them apart. -/
structure Positions.Follows (positions positions' : Positions) (move : Label → Label)
    (P : Label → Prop) : Prop where
  place : ∀ x, P x → positions'.place (move x) = positions.place x
  injective : ∀ x y, P x → P y → move x = move y → x = y

variable {positions positions' : Positions} {move : Label → Label} {P : Label → Prop}
  (follows : positions.Follows positions' move P)

include follows

namespace StackMap

theorem relabel_eq_iff {s t : VType} (hs : s.Sited P) (ht : t.Sited P) :
    s.relabel move = t.relabel move ↔ s = t := by
  refine ⟨fun same => ?_, fun same => by rw [same]⟩
  cases s <;> cases t <;>
    first
    | exact same
    | cases same
    | (injection same with same
       rw [follows.injective _ _ (hs _ rfl) (ht _ rfl) same])

theorem map_relabel_eq_iff {xs ys : List VType} (hx : ∀ t ∈ xs, t.Sited P)
    (hy : ∀ t ∈ ys, t.Sited P) :
    xs.map (VType.relabel move) = ys.map (VType.relabel move) ↔ xs = ys := by
  refine ⟨fun same => ?_, fun same => by rw [same]⟩
  induction xs generalizing ys with
  | nil => exact (List.map_eq_nil_iff.1 same.symm).symm
  | cons x xs ih =>
    obtain ⟨y, ys', rfl, first, rest⟩ := List.map_eq_cons_iff.1 same.symm
    rw [(relabel_eq_iff follows (hy y (List.mem_cons_self ..)) (hx x (List.mem_cons_self ..))).1
      first, ih (fun t ht => hx t (List.mem_cons_of_mem _ ht))
        (fun t ht => hy t (List.mem_cons_of_mem _ ht)) rest.symm]

theorem isPrefixOf_relabel {xs ys : List VType} (hx : ∀ t ∈ xs, t.Sited P)
    (hy : ∀ t ∈ ys, t.Sited P) :
    (xs.map (VType.relabel move)).isPrefixOf (ys.map (VType.relabel move)) =
      xs.isPrefixOf ys := by
  induction xs generalizing ys with
  | nil => rfl
  | cons x xs ih =>
    cases ys with
    | nil => rfl
    | cons y ys =>
      have first : (x.relabel move == y.relabel move) = (x == y) := by
        rw [Bool.eq_iff_iff, beq_iff_eq, beq_iff_eq]
        exact relabel_eq_iff follows (hx x (List.mem_cons_self ..)) (hy y (List.mem_cons_self ..))
      rw [List.map_cons, List.map_cons, List.isPrefixOf, List.isPrefixOf, first,
        ih (fun t ht => hx t (List.mem_cons_of_mem _ ht))
          fun t ht => hy t (List.mem_cons_of_mem _ ht)]

theorem writeType_relabel {t : VType} (ht : t.Sited P) :
    writeType positions' (t.relabel move) = writeType positions t := by
  cases t with
  | uninit site =>
    have same := follows.place site (ht site rfl)
    dsimp only [VType.relabel, writeType]
    rw [same]
  | _ => rfl

theorem writeVTypes_relabel {types : List VType} (ht : ∀ t ∈ types, t.Sited P) :
    writeVTypes positions' (types.map (VType.relabel move)) = writeVTypes positions types := by
  unfold writeVTypes
  rw [mapM_map_congr fun t h => writeType_relabel follows (ht t h)]

theorem writeChange_relabel {before : List VType} {frame : Frame} (distance : Nat)
    (hb : ∀ t ∈ before, t.Sited P) (hl : ∀ t ∈ frame.locals, t.Sited P)
    (hs : ∀ t ∈ frame.stack, t.Sited P) :
    writeChange positions' distance (before.map (VType.relabel move)) (frame.relabel move) =
      writeChange positions distance before frame := by
  obtain ⟨locals, stack⟩ := frame
  have more : ∀ n, writeVTypes positions' ((locals.map (VType.relabel move)).drop n) =
      writeVTypes positions (locals.drop n) := fun n => by
    rw [← List.map_drop]
    exact writeVTypes_relabel follows fun t ht => hl t (List.mem_of_mem_drop ht)
  unfold writeChange
  dsimp only [Frame.relabel] at hl hs ⊢
  rw [writeVTypes_relabel follows hl, writeVTypes_relabel follows hs]
  simp only [map_relabel_eq_iff follows hl hb, isPrefixOf_relabel follows hl hb,
    isPrefixOf_relabel follows hb hl, List.length_map, more]
  rcases stack with _ | ⟨t, _ | ⟨next, rest⟩⟩
  · rfl
  · have one := writeType_relabel follows (hs t (List.mem_cons_self ..))
    simp only [List.map_cons, List.map_nil, one]
  · rfl

theorem writeFrames_relabel {before : Option Nat} {locals : List VType}
    {frames : List (Nat × Frame)} {done : List Bytes} (hl : ∀ t ∈ locals, t.Sited P)
    (hf : ∀ f ∈ frames, ∀ t ∈ f.2.locals ++ f.2.stack, t.Sited P) :
    writeFrames positions' before (locals.map (VType.relabel move))
      (frames.map fun f => (f.1, f.2.relabel move)) done =
        writeFrames positions before locals frames done := by
  induction frames generalizing before locals done with
  | nil => rfl
  | cons f rest ih =>
    obtain ⟨offset, frame⟩ := f
    obtain ⟨here, others⟩ := List.forall_mem_cons.1 hf
    have own : ∀ t ∈ frame.locals, t.Sited P := fun t ht => here t (List.mem_append_left _ ht)
    have stack : ∀ t ∈ frame.stack, t.Sited P := fun t ht => here t (List.mem_append_right _ ht)
    rw [List.map_cons]
    dsimp only [writeFrames]
    rw [writeChange_relabel follows _ hl own stack]
    exact congrArg _ (funext fun change => ih own others)

theorem encode_relabel {initial : List VType} {frames : List (Nat × Frame)}
    (hi : ∀ t ∈ initial, t.Sited P)
    (hf : ∀ f ∈ frames, ∀ t ∈ f.2.locals ++ f.2.stack, t.Sited P) :
    encode positions' (initial.map (VType.relabel move))
      (frames.map fun f => (f.1, f.2.relabel move)) = encode positions initial frames := by
  unfold encode
  rw [writeFrames_relabel follows hi hf, List.length_map]

end StackMap

namespace Layout

variable {l l' : Layout} (same : ∀ x, P x → l'.positions.place (move x) = l.positions.place x)

omit follows
include same

theorem offset16_relabel {pc : Nat} {x : Label} (hx : P x) :
    l'.offset16 pc (move x) = l.offset16 pc x := by
  unfold offset16 distance
  rw [same x hx]

theorem offset32_relabel {pc : Nat} {x : Label} (hx : P x) :
    l'.offset32 pc (move x) = l.offset32 pc x := by
  unfold offset32 distance
  rw [same x hx]

theorem emitInsn_relabel {p : Placed} (targets : ∀ x ∈ p.insn.targets, P x) :
    l'.emitInsn { p with insn := p.insn.sortKeys.relabel move } = l.emitInsn p := by
  obtain ⟨pc, insn, index⟩ := p
  dsimp only at targets ⊢
  cases insn with
  | jump op target =>
    have target := targets target (List.mem_singleton_self _)
    dsimp only [Insn.sortKeys, Insn.relabel, emitInsn]
    rw [offset16_relabel same target, offset32_relabel same target]
  | tableSwitch fallback low high targets' =>
    obtain ⟨first, rest⟩ := List.forall_mem_cons.1 targets
    dsimp only [Insn.sortKeys, Insn.relabel, emitInsn]
    rw [offset32_relabel same first, mapM_map_congr fun x hx => offset32_relabel same (rest x hx)]
  | lookupSwitch fallback pairs =>
    obtain ⟨first, rest⟩ := List.forall_mem_cons.1 targets
    have perm := sortOn_perm (fun p : Int32 × Label => p.1.toInt) pairs
    have sorted : sortOn (fun p : Int32 × Label => p.1.toInt)
        ((sortOn (fun p => p.1.toInt) pairs).map fun p => (p.1, move p.2)) =
          (sortOn (fun p => p.1.toInt) pairs).map fun p => (p.1, move p.2) := by
      refine sortOn_of_pairwise ?_
      rw [List.pairwise_map]
      exact pairwise_sortOn _ _
    have pair : ∀ p ∈ sortOn (fun p : Int32 × Label => p.1.toInt) pairs,
        l'.emitPair pc (p.1, move p.2) = l.emitPair pc p := by
      intro p hp
      unfold emitPair
      rw [offset32_relabel same (rest p.2 (List.mem_map_of_mem (perm.mem_iff.1 hp)))]
    dsimp only [Insn.sortKeys, Insn.relabel, emitInsn]
    rw [offset32_relabel same first, sorted, mapM_map_congr pair, List.length_map, perm.length_eq]
  | _ => rfl

end Layout

namespace ClassFile

theorem encodeHandler_relabel {h : Handler} (named : ∀ x ∈ [h.start, h.finish, h.target], P x) :
    encodeHandler positions' (h.relabel move) = encodeHandler positions h := by
  unfold encodeHandler Handler.relabel
  dsimp only
  rw [follows.place _ (named h.start (by simp)), follows.place _ (named h.finish (by simp)),
    follows.place _ (named h.target (by simp))]

theorem encodeLocals_relabel {name : String} {locals : List LocalVariable}
    (named : ∀ v ∈ locals, ∀ x ∈ [v.start, v.finish], P x) :
    encodeLocals positions' name (locals.map (LocalVariable.relabel move)) =
      encodeLocals positions name locals := by
  have each : ∀ v ∈ locals,
      encodeLocal positions' (v.relabel move) = encodeLocal positions v := by
    intro v hv
    unfold encodeLocal LocalVariable.relabel
    dsimp only
    rw [follows.place _ (named v hv v.start (by simp)),
      follows.place _ (named v hv v.finish (by simp))]
  unfold encodeLocals
  rw [mapM_map_congr each, List.length_map, List.isEmpty_map]

theorem placedFrames_relabel {frames : List LabelledFrame} (named : ∀ f ∈ frames, P f.1) :
    placedFrames positions' (frames.map fun f => (move f.1, f.2.relabel move)) =
      List.map (fun f => (f.1, f.2.relabel move)) <$> placedFrames positions frames := by
  have each : ∀ f ∈ frames, (do return (← positions'.place (move f.1), f.2.relabel move) :
      Except WriteError (Nat × Frame)) =
        (fun g : Nat × Frame => (g.1, g.2.relabel move)) <$>
          (do return (← positions.place f.1, f.2) : Except WriteError (Nat × Frame)) := by
    intro f hf
    rw [follows.place f.1 (named f hf)]
    simp
  unfold placedFrames
  rw [mapM_map_fmap each]
  simp only [bind_map_left, map_bind, map_pure]
  congr 1
  funext placed
  exact congrArg pure (dedupOn_sortOn_map (fun _ => rfl) placed)

omit follows in
theorem sited_of_uninitSites {frame : Frame} (named : ∀ x ∈ uninitSites frame, P x) :
    ∀ t ∈ frame.locals ++ frame.stack, t.Sited P := by
  rintro t ht x rfl
  exact named x (List.mem_filterMap.2 ⟨_, ht, rfl⟩)

omit follows in
theorem sited_entryLocals (owner : String) (access : Access) (name : String)
    (d : MethodDescriptor) : ∀ t ∈ entryLocals owner access name d, t.Sited P := by
  rintro t ht x rfl
  have fixed : ∀ y, VType.uninit y = .uninit x := fun y =>
    entryLocals_fresh owner access name d (fun _ => y) _ ht
  have same := (fixed ⟨0⟩).trans (fixed ⟨1⟩).symm
  cases same

theorem encodeFrames_relabel {t : BodyTarget} {c : Code}
    (named : ∀ f ∈ (c.arranged t.withFrames).frames.getD [], ∀ x ∈ f.1 :: uninitSites f.2, P x) :
    encodeFrames t positions' ((c.stored t.withFrames).relabel move) =
      encodeFrames t positions c := by
  have frames : (((c.stored t.withFrames).relabel move).frames).getD [] =
      (if t.withFrames then c.frames.getD [] else []).map
        fun f => (move f.1, f.2.relabel move) := rfl
  unfold encodeFrames
  dsimp only
  rw [frames]
  cases stored : t.withFrames with
  | false => simp only [Bool.not_false, Bool.true_or, if_true]
  | true =>
    rw [stored] at named
    replace named : ∀ f ∈ c.frames.getD [], ∀ x ∈ f.1 :: uninitSites f.2, P x := named
    rw [if_pos rfl, List.isEmpty_map,
      placedFrames_relabel follows fun f hf => named f hf _ (List.mem_cons_self ..), lift_map_bind]
    refine if_congr Iff.rfl rfl (lift_bind_congr fun placed found => ?_)
    refine congrArg _ (funext fun d => ?_)
    have sited : ∀ g ∈ placed, ∀ t ∈ g.2.locals ++ g.2.stack, t.Sited P := by
      intro g hg
      rw [placedFrames_eq found] at hg
      obtain ⟨f, hf, rfl⟩ := List.mem_map.1 ((sortOn_perm _ _).mem_iff.1 (mem_of_mem_dedupOn hg))
      exact sited_of_uninitSites fun x hx => named f hf x (List.mem_cons_of_mem _ hx)
    have same := StackMap.encode_relabel follows
      (sited_entryLocals t.owner t.method.access t.method.name d) sited
    rw [List.map_congr_left (entryLocals_fresh t.owner t.method.access t.method.name d move),
      List.map_id'] at same
    rw [same]

end ClassFile

def Layout.renamed (keep : Insn → Bool) (move : Label → Label) (l : Layout) : Layout :=
  let placed := (l.placed.filter fun p => keep p.insn).map fun p =>
    { p with insn := p.insn.sortKeys.relabel move }
  ⟨placed, placed.foldl Placed.mark Positions.empty, l.length⟩

namespace Layout

variable {l : Layout} {keep : Insn → Bool}

omit follows in
theorem emitInsn_mark {p : Placed} (mark : p.insn.isExecuted = false) :
    l.emitInsn p = pure [] := by
  obtain ⟨pc, insn, index⟩ := p
  cases insn <;> first | rfl | cases mark

omit follows in
theorem emit_renamed (same : ∀ x, P x → (l.renamed keep move).positions.place (move x) =
      l.positions.place x) (targets : ∀ p ∈ l.placed, ∀ x ∈ p.insn.targets, P x)
    (marks : ∀ p ∈ l.placed, keep p.insn = false → p.insn.isExecuted = false) :
    (l.renamed keep move).emit = l.emit := by
  have all : (l.renamed keep move).placed.mapM (l.renamed keep move).emitInsn =
      (l.placed.filter fun p => keep p.insn).mapM l.emitInsn :=
    mapM_map_congr fun p hp => emitInsn_relabel same (targets p (List.mem_filter.1 hp).1)
  have flat : List.flatten <$> (l.placed.filter fun p => keep p.insn).mapM l.emitInsn =
      List.flatten <$> l.placed.mapM l.emitInsn :=
    flatten_mapM_filter fun p hp dropped => emitInsn_mark (marks p hp dropped)
  unfold emit
  rw [all]
  simp only [bind_pure_comp]
  exact flat

omit follows in
theorem storedLines_renamed (lines : ∀ number, keep (.line number) = true) :
    ClassFile.storedLines (l.renamed keep move) = ClassFile.storedLines l := by
  unfold ClassFile.storedLines renamed
  dsimp only
  rw [List.filterMap_map, List.filterMap_filter]
  refine List.filterMap_congr fun p _ => ?_
  obtain ⟨pc, insn, index⟩ := p
  dsimp only [Function.comp]
  cases insn with
  | line number => rw [if_pos (lines number)]; rfl
  | _ => split <;> rfl

end Layout

namespace ClassFile.BodyTarget

variable {t : BodyTarget} {c : Code} {l : Layout}

omit follows in
/-- What the stored form keeps of a body, laid out in the same places under other labels, is stored
in the same bytes. -/
theorem encodeSettled_relabel (laid : Layout.Laid c.insns l)
    (follows : l.positions.Follows
      (l.renamed (c.arranged t.withFrames).names move).positions move
      (· ∈ (c.arranged t.withFrames).mentions)) :
    t.encodeSettled ((c.stored t.withFrames).relabel move)
      (l.renamed (c.arranged t.withFrames).names move) = t.encodeSettled c l := by
  let kept := c.arranged t.withFrames
  have handlers : ∀ h ∈ c.handlers, ∀ x ∈ [h.start, h.finish, h.target], x ∈ kept.mentions :=
    fun h hh x hx => List.mem_append_left _ (List.mem_append_left _ (List.mem_append_right _
      (List.mem_flatMap.2 ⟨h, hh, hx⟩)))
  have frames : ∀ f ∈ kept.frames.getD [], ∀ x ∈ f.1 :: uninitSites f.2, x ∈ kept.mentions :=
    fun f hf x hx => List.mem_append_left _ (List.mem_append_right _
      (List.mem_flatMap.2 ⟨f, hf, hx⟩))
  have locals : ∀ v ∈ kept.locals, ∀ x ∈ [v.start, v.finish], x ∈ kept.mentions :=
    fun v hv x hx => List.mem_append_right _ (List.mem_flatMap.2 ⟨v, hv, hx⟩)
  have emitted := Layout.emit_renamed follows.place laid.mentioned fun p _ => Code.mark_of_unnamed
  have lines : encodeLines (l.renamed kept.names move) = encodeLines l := by
    rw [encodeLines_eq, encodeLines_eq, Layout.storedLines_renamed fun _ => rfl]
  have plain : ((c.stored t.withFrames).relabel move).locals.filter (fun v => !v.generic) =
      (c.locals.filter fun v => !v.generic).map (LocalVariable.relabel move) := by
    show ((c.locals.filter _ ++ c.locals.filter _).map _).filter _ = _
    rw [List.filter_map, List.filter_append, List.filter_filter, List.filter_filter]
    simp [Function.comp, LocalVariable.relabel]
  have generic : ((c.stored t.withFrames).relabel move).locals.filter (·.generic) =
      (c.locals.filter (·.generic)).map (LocalVariable.relabel move) := by
    show ((c.locals.filter _ ++ c.locals.filter _).map _).filter _ = _
    rw [List.filter_map, List.filter_append, List.filter_filter, List.filter_filter]
    simp [Function.comp, LocalVariable.relabel]
  have each : ((c.stored t.withFrames).relabel move).handlers.mapM
      (encodeHandler (l.renamed kept.names move).positions) =
        c.handlers.mapM (encodeHandler l.positions) :=
    mapM_map_congr fun h hh => encodeHandler_relabel follows (handlers h hh)
  unfold encodeSettled
  rw [emitted, each, encodeFrames_relabel follows frames, lines, plain, generic,
    encodeLocals_relabel follows fun v hv => locals v (List.mem_append_left _ hv),
    encodeLocals_relabel follows fun v hv => locals v (List.mem_append_right _ hv)]
  rfl

end ClassFile.BodyTarget

end ClassWeave
