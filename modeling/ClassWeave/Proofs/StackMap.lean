import Mathlib.Data.List.Forall2
import Mathlib.Tactic.Common
import ClassWeave.StackMap
import ClassWeave.Proofs.Pool.Calls
import ClassWeave.Proofs.Relabel

/-!
# Stored frames read back

Each stored change leads from the frame before it to the frame it was made from, so by induction
on the list a table reads back frame for frame. Labels of fresh objects come back as the offsets
they stand at.
-/

set_option autoImplicit false

namespace ClassWeave

def VType.Within (limits : Limits) : VType → Prop
  | .object name => limits.text name
  | _ => True

structure Frame.Within (limits : Limits) (frame : Frame) : Prop where
  locals : ∀ t ∈ frame.locals, t.Within limits
  stack : ∀ t ∈ frame.stack, t.Within limits

theorem Frame.within_none (frame : Frame) : frame.Within Limits.none := by
  have each : ∀ t : VType, t.Within Limits.none := fun t => by cases t <;> trivial
  exact ⟨fun t _ => each t, fun t _ => each t⟩

/-- The counts of the frame fit their fields, or a form without counts leads to it from a frame with
the locals `before`. -/
def Frame.Reachable (before : List VType) (frame : Frame) : Prop :=
  (frame.locals.length < 65536 ∧ frame.stack.length < 65536) ∨
  (frame.locals = before ∧ frame.stack.length ≤ 1) ∨
  (frame.stack = [] ∧
    ((frame.locals <+: before ∧ before.length - frame.locals.length ≤ 3) ∨
      (before <+: frame.locals ∧ frame.locals.length - before.length ≤ 3)))

def Positions.Bounded (positions : Positions) : Prop :=
  ∀ l n, positions.find? l = some n → n < 65536

def VType.Near (positions : Positions) (t : VType) : Prop :=
  ∀ site, t = .uninit site → ∀ n, positions.find? site = some n → n < 65536

structure Frame.Near (positions : Positions) (frame : Frame) : Prop where
  locals : ∀ t ∈ frame.locals, t.Near positions
  stack : ∀ t ∈ frame.stack, t.Near positions

theorem Positions.Bounded.near {positions : Positions} (h : positions.Bounded) (frame : Frame) :
    frame.Near positions :=
  ⟨fun _ _ site _ n => h site n, fun _ _ site _ n => h site n⟩

namespace StackMap

variable {limits : Limits} {positions : Positions}

theorem grows_writeType [Growing Pool] [Pool.Interning limits] {t : VType}
    (near : t.Near positions) (ht : t.Within limits) :
    Grows limits (writeType positions t) fun f bytes =>
      ∀ o, ReadsAt o (readType f) bytes (t.relabel positions.moved) := by
  cases t with
  | object name =>
    refine .bind (Pool.grows_internClass ht) fun i _ => ?_
    refine .pure fun f hi o => ?_
    exact .bind (.u8 7) (.bind_last (.u16_toNat i) (.bind_nil (.lift hi.2) (.pure _)))
  | uninit site =>
    refine .bind (P := fun _ n => positions.find? site = some n)
      (.lift fun f n h => Positions.place_eq_ok.1 h) fun n _ => ?_
    refine .pure fun f hn o => ?_
    have small := near site rfl n hn
    refine .bind (.u8 8) (.bind_last (.u16 n small) ?_)
    rw [UInt16.toNat_ofNat_of_lt' small]
    have moved := Positions.moved_of_find? hn
    rw [VType.relabel, moved]
    exact .pure _
  | top => exact .pure fun f o => .bind_last (.u8 0) (.pure _)
  | int => exact .pure fun f o => .bind_last (.u8 1) (.pure _)
  | float => exact .pure fun f o => .bind_last (.u8 2) (.pure _)
  | double => exact .pure fun f o => .bind_last (.u8 3) (.pure _)
  | long => exact .pure fun f o => .bind_last (.u8 4) (.pure _)
  | null => exact .pure fun f o => .bind_last (.u8 5) (.pure _)
  | uninitThis => exact .pure fun f o => .bind_last (.u8 6) (.pure _)

theorem grows_writeVTypes [Growing Pool] [Pool.Interning limits] {types : List VType}
    (near : ∀ t ∈ types, t.Near positions) (ht : ∀ t ∈ types, t.Within limits) :
    Grows limits (writeVTypes positions types) fun f bytes => ∀ o,
      ReadsAt o (Reader.times types.length (readType f)) bytes
        (types.map (VType.relabel positions.moved)) := by
  refine .bind (.mapM fun t h => grows_writeType (near t h) (ht t h)) fun written _ => ?_
  refine .pure fun f hw o => ?_
  have items : ReadsAt o
      (Reader.times (types.map (VType.relabel positions.moved)).length (readType f))
      written.flatten (types.map (VType.relabel positions.moved)) :=
    .times (List.forall₂_map_right_iff.2 hw.flip)
  rwa [List.length_map] at items

section Changes

variable {f : Pool} {locals : List VType} {o : Nat}

theorem readsAt_tag {n : Nat} (hn : n < 256) {bytes : Bytes} {k : UInt8 → Reader (Nat × Frame)}
    {a : Nat × Frame} (h : ∀ tag : UInt8, tag.toNat = n → ReadsAt (o + 1) (k tag) bytes a) :
    ReadsAt o (Reader.u8 >>= k) (UInt8.ofNat n :: bytes) a :=
  .bind (.u8 (UInt8.ofNat n)) (h _ (UInt8.toNat_ofNat_of_lt' hn))

theorem readsAt_same {distance : Nat} (h : distance < 64) :
    ReadsAt o (readChange f locals) [UInt8.ofNat distance] (distance, ⟨locals, []⟩) := by
  refine readsAt_tag (by omega) fun tag htag => ?_
  rw [htag, if_pos (by omega)]
  exact .pure _

theorem readsAt_one {distance : Nat} (h : distance < 64) {bytes : Bytes} {t : VType}
    (ht : ∀ o, ReadsAt o (readType f) bytes t) :
    ReadsAt o (readChange f locals) (UInt8.ofNat (64 + distance) :: bytes)
      (distance, ⟨locals, [t]⟩) := by
  refine readsAt_tag (by omega) fun tag htag => ?_
  rw [htag, if_neg (by omega), if_pos (by omega)]
  refine .bind_last (ht _) ?_
  rw [Nat.add_sub_cancel_left]
  exact .pure _

theorem readsAt_far {n distance : Nat} (hn : 247 ≤ n) (hn' : n < 256) (h : distance < 65536)
    {bytes : Bytes} {frame : Frame}
    (hk : ReadsAt (o + 3) (
      if n = 247 then do
        let t ← readType f
        return (distance, ⟨locals, [t]⟩)
      else if n ≤ 250 then do
        let chop := 251 - n
        if locals.length < chop then
          throw (.badAttribute (.chopTooLong chop locals.length))
        return (distance, ⟨locals.take (locals.length - chop), []⟩)
      else if n = 251 then return (distance, ⟨locals, []⟩)
      else if n ≤ 254 then do
        let more ← Reader.times (n - 251) (readType f)
        return (distance, ⟨locals ++ more, []⟩)
      else do
        let locals ← Reader.counted (readType f)
        let stack ← Reader.counted (readType f)
        return (distance, ⟨locals, stack⟩) : Reader (Nat × Frame)) bytes (distance, frame)) :
    ReadsAt o (readChange f locals) (UInt8.ofNat n :: (Bytes.be 2 distance ++ bytes))
      (distance, frame) := by
  refine readsAt_tag hn' fun tag htag => ?_
  rw [htag, if_neg (by omega), if_neg (by omega), if_neg (by omega)]
  refine .bind (.u16 distance h) ?_
  rw [UInt16.toNat_ofNat_of_lt' h]
  exact hk

theorem readsAt_unchanged {distance : Nat} (h : distance < 65536) :
    ReadsAt o (readChange f locals)
      (if distance < 64 then [UInt8.ofNat distance] else 251 :: Bytes.be 2 distance)
      (distance, ⟨locals, []⟩) := by
  split
  · exact readsAt_same ‹_›
  · have far : ReadsAt o (readChange f locals) (UInt8.ofNat 251 :: (Bytes.be 2 distance ++ [])) _ :=
      readsAt_far (by omega) (by omega) h (.pure _)
    rwa [List.append_nil] at far

theorem readsAt_top {distance : Nat} (h : distance < 65536) {bytes : Bytes} {t : VType}
    (ht : ∀ o, ReadsAt o (readType f) bytes t) :
    ReadsAt o (readChange f locals)
      ((if distance < 64 then [UInt8.ofNat (64 + distance)] else 247 :: Bytes.be 2 distance)
        ++ bytes) (distance, ⟨locals, [t]⟩) := by
  split
  · exact readsAt_one ‹_› ht
  · have far : ReadsAt o (readChange f locals)
        (UInt8.ofNat 247 :: (Bytes.be 2 distance ++ bytes)) _ :=
      readsAt_far (by omega) (by omega) h (.bind_last (ht _) (.pure _))
    exact far

theorem readsAt_chop {kept gone : List VType} {distance : Nat} (h : distance < 65536)
    (nonempty : 0 < gone.length) (few : gone.length ≤ 3) :
    ReadsAt o (readChange f (kept ++ gone)) (UInt8.ofNat (251 - gone.length) :: Bytes.be 2 distance)
      (distance, ⟨kept, []⟩) := by
  have far : ReadsAt o (readChange f (kept ++ gone))
      (UInt8.ofNat (251 - gone.length) :: (Bytes.be 2 distance ++ [])) (distance, ⟨kept, []⟩) := by
    refine readsAt_far (by omega) (by omega) h ?_
    have chopped : 251 - (251 - gone.length) = gone.length := by omega
    rw [if_neg (by omega), if_pos (by omega)]
    dsimp only
    rw [chopped, List.length_append, if_neg (by omega), Nat.add_sub_cancel, List.take_left]
    exact .pure _
  rwa [List.append_nil] at far

theorem readsAt_append {added : List VType} {distance : Nat} (h : distance < 65536)
    (nonempty : 0 < added.length) (few : added.length ≤ 3) {bytes : Bytes}
    (ht : ∀ o, ReadsAt o (Reader.times added.length (readType f)) bytes added) :
    ReadsAt o (readChange f locals)
      (UInt8.ofNat (251 + added.length) :: (Bytes.be 2 distance ++ bytes))
      (distance, ⟨locals ++ added, []⟩) := by
  refine readsAt_far (by omega) (by omega) h ?_
  rw [if_neg (by omega), if_neg (by omega), if_neg (by omega), if_pos (by omega),
    Nat.add_sub_cancel_left]
  exact .bind_last (ht _) (.pure _)

end Changes

theorem readsAt_full {f : Pool} {before locals stack : List VType} {o distance : Nat}
    (h : distance < 65536) (hl : locals.length < 65536) (hs : stack.length < 65536)
    {localTypes stackTypes : Bytes}
    (hlt : ∀ o, ReadsAt o (Reader.times locals.length (readType f)) localTypes locals)
    (hst : ∀ o, ReadsAt o (Reader.times stack.length (readType f)) stackTypes stack) :
    ReadsAt o (readChange f before)
      (255 :: Bytes.be 2 distance ++ Bytes.be 2 locals.length ++ localTypes ++
        Bytes.be 2 stack.length ++ stackTypes) (distance, ⟨locals, stack⟩) := by
  have counted : ∀ (types : List VType) (bytes : Bytes) (o : Nat), types.length < 65536 →
      (∀ o, ReadsAt o (Reader.times types.length (readType f)) bytes types) →
      ReadsAt o (Reader.counted (readType f)) (Bytes.be 2 types.length ++ bytes) types := by
    intro types bytes o fits ht
    refine .bind (.u16 _ fits) ?_
    rw [UInt16.toNat_ofNat_of_lt' fits]
    exact ht _
  have body : ReadsAt (o + 3) (do
      let locals ← Reader.counted (readType f)
      let stack ← Reader.counted (readType f)
      return (distance, (⟨locals, stack⟩ : Frame)))
      (Bytes.be 2 locals.length ++ localTypes ++ (Bytes.be 2 stack.length ++ stackTypes))
      (distance, ⟨locals, stack⟩) :=
    .bind (counted locals localTypes _ hl hlt)
      (.bind_last (counted stack stackTypes _ hs hst) (.pure _))
  have whole : ReadsAt o (readChange f before) (UInt8.ofNat 255 :: (Bytes.be 2 distance ++ _)) _ :=
    readsAt_far (by omega) (by omega) h body
  simp only [List.append_assoc, List.cons_append] at whole ⊢
  exact whole

theorem lt_of_prefix {xs ys : List VType} (h : xs <+: ys) (ne : xs ≠ ys) : xs.length < ys.length :=
  Nat.lt_of_le_of_ne h.length_le fun same => ne (h.eq_of_length same)

section Writer

variable {distance : Nat} {before locals : List VType}

theorem grows_writeFull [Growing Pool] [Pool.Interning limits] (h : distance < 65536)
    {stack : List VType} (close : (Frame.mk locals stack).Near positions)
    (hf : (Frame.mk locals stack).Within limits)
    (counts : locals.length < 65536 ∧ stack.length < 65536) :
    Grows limits (do
      let localTypes ← writeVTypes positions locals
      let stackTypes ← writeVTypes positions stack
      return 255 :: Bytes.be 2 distance ++ Bytes.be 2 locals.length ++ localTypes ++
        Bytes.be 2 stack.length ++ stackTypes : Pool.Growth Bytes) fun f bytes => ∀ o,
      ReadsAt o (readChange f (before.map (VType.relabel positions.moved))) bytes
        (distance, Frame.relabel positions.moved ⟨locals, stack⟩) := by
  refine .bind (grows_writeVTypes close.locals hf.locals) fun localTypes _ => ?_
  refine .bind (grows_writeVTypes close.stack hf.stack) fun stackTypes _ => ?_
  refine .pure fun f hst hlt o => ?_
  have whole : ReadsAt o (readChange f (before.map (VType.relabel positions.moved))) _
      (distance, ⟨locals.map (VType.relabel positions.moved),
        stack.map (VType.relabel positions.moved)⟩) :=
    readsAt_full h (by simpa using counts.1) (by simpa using counts.2) (by simpa using hlt)
      (by simpa using hst)
  simpa [Frame.relabel] using whole

theorem readsAt_writeChop (h : distance < 65536)
    (fewer : locals.length < before.length ∧ before.length - locals.length ≤ 3 ∧
      locals.isPrefixOf before) (f : Pool) (o : Nat) :
    ReadsAt o (readChange f (before.map (VType.relabel positions.moved)))
      (UInt8.ofNat (251 - (before.length - locals.length)) :: Bytes.be 2 distance)
      (distance, Frame.relabel positions.moved ⟨locals, []⟩) := by
  obtain ⟨less, near, begins⟩ := fewer
  obtain ⟨gone, rfl⟩ := List.isPrefixOf_iff_prefix.1 begins
  rw [List.length_append] at less near ⊢
  rw [Nat.add_sub_cancel_left] at near ⊢
  have chop : ReadsAt o (readChange f (locals.map (VType.relabel positions.moved) ++
      gone.map (VType.relabel positions.moved))) _ _ :=
    readsAt_chop h (by rw [List.length_map]; omega) (by rwa [List.length_map])
  rwa [List.length_map, ← List.map_append] at chop

theorem grows_writeMore [Growing Pool] [Pool.Interning limits] (h : distance < 65536)
    (close : (Frame.mk locals []).Near positions)
    (hf : (Frame.mk locals []).Within limits)
    (more : before.length < locals.length ∧ locals.length - before.length ≤ 3 ∧
      before.isPrefixOf locals) :
    Grows limits (do
      let more ← writeVTypes positions (locals.drop before.length)
      return UInt8.ofNat (251 + (locals.length - before.length)) :: Bytes.be 2 distance ++ more :
        Pool.Growth Bytes) fun f bytes => ∀ o,
      ReadsAt o (readChange f (before.map (VType.relabel positions.moved))) bytes
        (distance, Frame.relabel positions.moved ⟨locals, []⟩) := by
  obtain ⟨less, near, begins⟩ := more
  obtain ⟨added, rfl⟩ := List.isPrefixOf_iff_prefix.1 begins
  rw [List.length_append] at less near ⊢
  rw [Nat.add_sub_cancel_left] at near ⊢
  rw [List.drop_left]
  have types : ∀ t ∈ added, t.Within limits := fun t ht =>
    hf.locals t (List.mem_append_right before ht)
  have sites : ∀ t ∈ added, t.Near positions := fun t ht =>
    close.locals t (List.mem_append_right before ht)
  refine .bind (grows_writeVTypes sites types) fun written _ => ?_
  refine .pure fun f hw o => ?_
  have append : ReadsAt o (readChange f (before.map (VType.relabel positions.moved))) _
      (distance, ⟨before.map (VType.relabel positions.moved) ++
        added.map (VType.relabel positions.moved), []⟩) :=
    readsAt_append h (by rw [List.length_map]; omega) (by rwa [List.length_map])
      (by simpa using hw)
  rwa [List.length_map, ← List.map_append] at append

theorem grows_writeChange [Growing Pool] [Pool.Interning limits] (h : distance < 65536)
    {frame : Frame} (close : frame.Near positions)
    (hf : frame.Within limits) (reachable : frame.Reachable before) :
    Grows limits (writeChange positions distance before frame) fun f bytes => ∀ o,
      ReadsAt o (readChange f (before.map (VType.relabel positions.moved))) bytes
        (distance, frame.relabel positions.moved) := by
  obtain ⟨locals, stack⟩ := frame
  unfold writeChange
  match stack with
  | [] =>
    dsimp only
    split
    · rename_i same
      subst same
      exact .pure fun f o => readsAt_unchanged h
    · rename_i differ
      split
      · rename_i fewer
        exact .pure (readsAt_writeChop h fewer)
      · rename_i notFewer
        split
        · rename_i more
          exact grows_writeMore h close hf more
        · rename_i notMore
          refine grows_writeFull h close hf ?_
          rcases reachable with counts | ⟨same, _⟩ | ⟨_, ⟨begins, near⟩ | ⟨begins, near⟩⟩
          · exact counts
          · exact absurd same differ
          · have shorter := lt_of_prefix begins differ
            exact absurd ⟨shorter, near, List.isPrefixOf_iff_prefix.2 begins⟩ notFewer
          · have longer := lt_of_prefix begins (Ne.symm differ)
            exact absurd ⟨longer, near, List.isPrefixOf_iff_prefix.2 begins⟩ notMore
  | [t] =>
    dsimp only
    split
    · rename_i same
      subst same
      refine .bind (grows_writeType (close.stack t (List.mem_singleton.2 rfl))
        (hf.stack t (List.mem_singleton.2 rfl))) fun top _ => ?_
      exact .pure fun f ht o => readsAt_top h ht
    · rename_i differ
      refine grows_writeFull h close hf ?_
      rcases reachable with counts | ⟨same, _⟩ | ⟨empty, _⟩
      · exact counts
      · exact absurd same differ
      · cases empty
  | _ :: _ :: _ =>
    refine grows_writeFull h close hf ?_
    rcases reachable with counts | ⟨_, one⟩ | ⟨empty, _⟩
    · exact counts
    · exact absurd one (by simp)
    · cases empty

end Writer

def Reachable : List VType → List (Nat × Frame) → Prop
  | _, [] => True
  | before, f :: rest => f.2.Reachable before ∧ Reachable f.2.locals rest

def Behind (before : Option Nat) (frames : List (Nat × Frame)) : Prop :=
  ∀ earlier, before = some earlier → ∀ f ∈ frames, earlier < f.1

def gap (before : Option Nat) (offset : Nat) : Nat :=
  match before with
  | none => offset
  | some earlier => offset - earlier - 1

theorem gap_le (before : Option Nat) (offset : Nat) : gap before offset ≤ offset := by
  cases before with
  | none => exact Nat.le_refl _
  | some earlier =>
    show offset - earlier - 1 ≤ offset
    omega

theorem advance_gap {before : Option Nat} {offset : Nat}
    (h : ∀ earlier, before = some earlier → earlier < offset) :
    advance before (gap before offset) = offset := by
  cases before with
  | none => rfl
  | some earlier =>
    have := h earlier rfl
    show earlier + (offset - earlier - 1) + 1 = offset
    omega

theorem grows_writeFrames [Growing Pool] [Pool.Interning limits]
    {frames : List (Nat × Frame)} (ascending : frames.Pairwise (·.1 < ·.1))
    (near : ∀ f ∈ frames, f.1 < 65536) (close : ∀ f ∈ frames, f.2.Near positions)
    (within : ∀ f ∈ frames, f.2.Within limits) (before : Option Nat)
    (behind : Behind before frames) (locals : List VType) (reachable : Reachable locals frames)
    (done : List Bytes) :
    Grows limits (writeFrames positions before locals frames done) fun f bytes =>
      ∃ tail, bytes = done.reverse.flatten ++ tail ∧ ∀ o known,
        ReadsAt o (readFrames f frames.length before
          (locals.map (VType.relabel positions.moved)) known) tail
          (known.reverse ++ frames.map fun g => (g.1, g.2.relabel positions.moved)) := by
  induction frames generalizing before locals done with
  | nil =>
    refine .pure fun f => ⟨[], (List.append_nil _).symm, fun o known => ?_⟩
    rw [List.map_nil, List.append_nil]
    exact .pure _
  | cons g rest ih =>
    obtain ⟨offset, frame⟩ := g
    obtain ⟨lt, ascending⟩ := List.pairwise_cons.1 ascending
    have small := near (offset, frame) (List.mem_cons_self ..)
    have hc := close (offset, frame) (List.mem_cons_self ..)
    have hf := within (offset, frame) (List.mem_cons_self ..)
    obtain ⟨first, others⟩ := reachable
    have next : ∀ earlier, before = some earlier → earlier < offset := fun earlier h =>
      behind earlier h (offset, frame) (List.mem_cons_self ..)
    have hsmall := Nat.lt_of_le_of_lt (gap_le before offset) small
    have after : Behind (some offset) rest := by
      intro earlier h g hg
      cases h
      exact lt g hg
    show Grows limits (do
      let change ← writeChange positions (gap before offset) locals frame
      writeFrames positions (some offset) frame.locals rest (change :: done)) _
    refine .bind (grows_writeChange hsmall hc hf first) fun change _ => ?_
    have rest := ih ascending (fun g hg => near g (List.mem_cons_of_mem _ hg))
      (fun g hg => close g (List.mem_cons_of_mem _ hg))
      (fun g hg => within g (List.mem_cons_of_mem _ hg)) (some offset) after frame.locals others
      (change :: done)
    refine rest.mono fun f bytes ⟨tail, hbytes, htail⟩ hchange => ?_
    refine ⟨change ++ tail, ?_, fun o known => ?_⟩
    · rw [hbytes, List.reverse_cons, List.flatten_append, List.append_assoc]
      simp
    · refine .bind (hchange o) ?_
      dsimp only
      rw [advance_gap next]
      have last := htail (o + change.length) ((offset, frame.relabel positions.moved) :: known)
      rw [List.reverse_cons, List.append_assoc] at last
      exact last

/-- A table of frames reads back, each frame at its offset. The reader starts from the same locals,
with labels at their offsets. -/
theorem grows_encode [Growing Pool] [Pool.Interning limits] {initial : List VType}
    {frames : List (Nat × Frame)}
    (ascending : frames.Pairwise (·.1 < ·.1)) (near : ∀ f ∈ frames, f.1 < 65536)
    (close : ∀ f ∈ frames, f.2.Near positions) (within : ∀ f ∈ frames, f.2.Within limits)
    (reachable : Reachable initial frames) (count : frames.length < 65536) :
    Grows limits (encode positions initial frames) fun f bytes =>
      decode f (initial.map (VType.relabel positions.moved)) bytes =
        .ok (frames.map fun g => (g.1, g.2.relabel positions.moved)) := by
  have behind : Behind none frames := fun _ h => nomatch h
  refine .bind (grows_writeFrames ascending near close within none behind initial reachable [])
    fun _ _ => ?_
  refine .pure fun f ⟨tail, hbytes, htail⟩ => ?_
  apply ReadsAll.runOn
  apply ReadsAt.all
  refine .bind (.u16 _ count) ?_
  rw [hbytes, UInt16.toNat_ofNat_of_lt' count]
  have whole := htail (0 + (Bytes.be 2 frames.length).length) []
  simpa using whole

theorem near_of_bound {frame : Frame} (bound : ∀ site, .uninit site ∈ frame.locals ++ frame.stack →
    ∃ n < 65536, positions.find? site = some n) : frame.Near positions := by
  have small : ∀ t ∈ frame.locals ++ frame.stack, t.Near positions := by
    rintro _ ht site rfl n hn
    obtain ⟨k, hk, found⟩ := bound site ht
    rw [hn] at found
    cases found
    exact hk
  exact ⟨fun t ht => small t (List.mem_append_left _ ht),
    fun t ht => small t (List.mem_append_right _ ht)⟩

theorem reachable_of_counts {frames : List (Nat × Frame)} {before : List VType}
    (counts : ∀ g ∈ frames, g.2.locals.length < 65536 ∧ g.2.stack.length < 65536) :
    Reachable before frames := by
  induction frames generalizing before with
  | nil => trivial
  | cons g frames ih =>
    obtain ⟨first, rest⟩ := List.forall_mem_cons.1 counts
    exact ⟨.inl first, ih rest⟩

/-- What is written reads back in the grown pool and in every later one: the same offsets and the
same frames, with each fresh object named by the offset of its `new`. That goes for the locals that
the first frame is compared with as well; where they hold no fresh object they are the same list. -/
theorem decode_encode {initial : List VType} {frames : List (Nat × Frame)}
    (ascending : frames.Pairwise (·.1 < ·.1)) (near : ∀ g ∈ frames, g.1 < 65536)
    (count : frames.length < 65536)
    (counts : ∀ g ∈ frames, g.2.locals.length < 65536 ∧ g.2.stack.length < 65536)
    (bound : ∀ g ∈ frames, ∀ site, .uninit site ∈ g.2.locals ++ g.2.stack →
      ∃ n < 65536, positions.find? site = some n)
    {p q f : Pool} (hp : p.InUse) {bytes : Bytes}
    (written : encode positions initial frames p = (.ok bytes, q)) (later : q.Grown f) :
    decode f (initial.map (VType.relabel positions.moved)) bytes =
        .ok (frames.map fun g => (g.1, g.2.relabel positions.moved)) ∧
      ((∀ site, .uninit site ∉ initial) → decode f initial bytes =
        .ok (frames.map fun g => (g.1, g.2.relabel positions.moved))) := by
  let : Growing Pool := Pool.growingInUse
  have reachable : Reachable initial frames := reachable_of_counts counts
  have grows : Grows Limits.none _ _ := grows_encode ascending near
    (fun g hg => near_of_bound (bound g hg)) (fun g _ => g.2.within_none) reachable count
  obtain ⟨_, _, reads⟩ := grows p _ q hp written
  have whole := reads bytes rfl f later
  refine ⟨whole, fun settled => ?_⟩
  have same : ∀ t ∈ initial, t.relabel positions.moved = t := by
    intro t ht
    cases t with
    | uninit site => exact absurd ht (settled site)
    | _ => rfl
  rwa [List.map_congr_left same, List.map_id'] at whole

/-- One frame of each form; the second and the last stand too far for a short one. -/
def sixForms : List (Nat × Frame) := [
  (3, ⟨[.object "A", .int], []⟩),
  (70, ⟨[.object "A", .int], []⟩),
  (75, ⟨[.object "A", .int], [.uninit ⟨9⟩]⟩),
  (80, ⟨[.object "A"], []⟩),
  (90, ⟨[.object "A", .long, .uninit ⟨9⟩], []⟩),
  (40000, ⟨[.null], [.double, .top]⟩)]

theorem decode_encode_sixForms : ∃ bytes q,
    encode (Positions.empty.bind ⟨9⟩ 60) [.object "A", .int] sixForms Pool.empty =
      (.ok bytes, q) ∧
    decode q [.object "A", .int] bytes = .ok [
      (3, ⟨[.object "A", .int], []⟩),
      (70, ⟨[.object "A", .int], []⟩),
      (75, ⟨[.object "A", .int], [.uninit ⟨60⟩]⟩),
      (80, ⟨[.object "A"], []⟩),
      (90, ⟨[.object "A", .long, .uninit ⟨60⟩], []⟩),
      (40000, ⟨[.null], [.double, .top]⟩)] := by
  have succeeds : (encode (Positions.empty.bind ⟨9⟩ 60) [.object "A", .int] sixForms
      Pool.empty).1.isOk = true := by
    decide +kernel
  rcases run : encode (Positions.empty.bind ⟨9⟩ 60) [.object "A", .int] sixForms Pool.empty with
    ⟨e | bytes, q⟩
  · rw [run] at succeeds
    cases succeeds
  have place : (Positions.empty.bind ⟨9⟩ 60).find? ⟨9⟩ = some 60 := by
    rw [Positions.find?_bind, if_pos rfl]
  refine ⟨bytes, q, rfl, ?_⟩
  have read := (decode_encode (by decide) (by decide) (by decide) (by decide)
    (fun g hg site hs => ?_) Pool.inUse_empty run (Indexed.Grown.refl q)).2 (by simp)
  · rw [read]
    simp [sixForms, Frame.relabel, VType.relabel, Positions.moved, place, Label.ofNat]
  · simp only [sixForms, List.mem_cons, List.not_mem_nil, or_false] at hg
    rcases hg with rfl | rfl | rfl | rfl | rfl | rfl <;> simp at hs
    all_goals
      subst hs
      exact ⟨60, by decide, place⟩

/-- A fresh object among the locals at first is not named by its offset: the one frame, which holds
the same locals, is written as one that changes nothing. -/
theorem uninit_of_initial : ¬ ∀ (positions : Positions) (initial : List VType)
    (frames : List (Nat × Frame)) (p q : Pool) (bytes : Bytes),
    frames.Pairwise (·.1 < ·.1) → (∀ g ∈ frames, g.1 < 65536) → frames.length < 65536 →
    (∀ g ∈ frames, g.2.locals.length < 65536 ∧ g.2.stack.length < 65536) →
    (∀ g ∈ frames, ∀ site, .uninit site ∈ g.2.locals ++ g.2.stack →
      ∃ n < 65536, positions.find? site = some n) →
    p.InUse → encode positions initial frames p = (.ok bytes, q) →
    decode q initial bytes = .ok (frames.map fun g => (g.1, g.2.relabel positions.moved)) := by
  intro always
  have place : (Positions.empty.bind ⟨9⟩ 60).find? ⟨9⟩ = some 60 := by
    rw [Positions.find?_bind, if_pos rfl]
  have run : encode (Positions.empty.bind ⟨9⟩ 60) [.uninit ⟨9⟩] [(3, ⟨[.uninit ⟨9⟩], []⟩)]
      Pool.empty = (.ok [0, 1, 3], Pool.empty) := rfl
  have moved := always _ _ _ _ _ _ (by decide) (by decide) (by decide) (by decide)
    (fun g hg site hs => ?_) Pool.inUse_empty run
  · have kept : decode Pool.empty [.uninit ⟨9⟩] [0, 1, 3] = .ok [(3, ⟨[.uninit ⟨9⟩], []⟩)] := rfl
    rw [kept] at moved
    simp [Frame.relabel, VType.relabel, Positions.moved, place, Label.ofNat] at moved
  · cases List.mem_singleton.1 hg
    simp only [List.append_nil, List.mem_singleton, VType.uninit.injEq] at hs
    exact ⟨60, by decide, hs ▸ place⟩

end StackMap

end ClassWeave
