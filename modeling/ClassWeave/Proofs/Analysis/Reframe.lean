import Mathlib.Tactic.Common
import ClassWeave.Proofs.Analysis.Fixpoint
import ClassWeave.Proofs.Analysis.Labels
import ClassWeave.Proofs.Analysis.Runs
import ClassWeave.Proofs.Relabel

/-!
# Recomputed bodies

A body that has no frames to start from gets its maxima and frames from a fixpoint of its
states: every state absorbs what comes to it, over branches and over exceptions.
-/

set_option autoImplicit false

namespace ClassWeave

namespace Analysis

variable {a : Analysis} {entry : State} {done : Progress}

/-- States that absorb whatever reaches them, and that exist where something does. -/
structure Fixpoint (a : Analysis) (entry : State) (done : Progress) : Prop where
  reachable : ∀ i, (∃ s, stateAt done.states i = some s) ↔ a.flow.Reachable i
  entry : ∃ s, stateAt done.states 0 = some s ∧ a.hierarchy.Absorbs s entry
  passed : ∀ i before, stateAt done.states i = some before → ∃ insn after targets,
    a.flow.insns[i]? = some insn ∧
    a.method.execute i a.sites[i]? insn before = .ok after ∧
    a.flow.successors i insn = .ok targets ∧
    (∀ t ∈ targets, t < a.flow.size ∧
      ∃ s, stateAt done.states t = some s ∧ a.hierarchy.Absorbs s after) ∧
    stackSlots before.stack ≤ done.maxStack ∧ stackSlots after.stack ≤ done.maxStack
  caught : ∀ i before, stateAt done.states i = some before → ∀ r ∈ a.flow.ranges,
    r.covers i = true → ∃ s, stateAt done.states r.target = some s ∧
      a.hierarchy.Absorbs s ⟨before.locals, [r.caught]⟩

theorem fixpoint_run (sound : a.Sound entry.locals.length) (typed : a.Typed entry)
    {maxLocals : Nat} (run : a.run entry maxLocals = .ok done) : a.Fixpoint entry done := by
  have closed := typed.closed (I := absorption _ sound.noHints) sound.roomy fun _ => Iff.rfl
  have served := (Intake.invariant_run sound.inside closed run).served fun _ _ _ _ _ h => h
  exact ⟨served.reachable, served.entry, served.passed, served.caught⟩

end Analysis

theorem Flow.ofCode_eq {m : MethodSite} {c : Code} {f : Flow} (made : Flow.ofCode m c = .ok f) :
    f.insns = c.executed.toArray ∧ 0 < f.size ∧ f.positions = c.positions ∧
      c.handlers.mapM (range m f.positions f.size) = .ok f.ranges := by
  unfold ofCode at made
  dsimp only at made
  split at made
  · cases made
  · rename_i nonempty
    obtain ⟨ranges, ranged, made⟩ := bind_ok_iff.1 made
    cases made
    refine ⟨rfl, ?_, rfl, ranged⟩
    exact Nat.pos_of_ne_zero fun empty => nonempty (by simpa [size] using empty)

theorem Flow.range_eq {m : MethodSite} {positions : Positions} {count : Nat} {h : Handler}
    {r : HandlerRange} (made : range m positions count h = .ok r) :
    r.handler = h ∧ r.target < count ∧ positions.find? h.start = some r.start ∧
      positions.find? h.finish = some r.finish := by
  obtain ⟨target, _, made⟩ := bind_ok_iff.1 made
  split at made
  · cases made
  · rename_i inside
    obtain ⟨start, hs, made⟩ := bind_ok_iff.1 made
    obtain ⟨finish, hf, made⟩ := bind_ok_iff.1 made
    cases made
    exact ⟨rfl, Nat.lt_of_not_le inside, Positions.place_eq_ok.1 hs, Positions.place_eq_ok.1 hf⟩

theorem Flow.ranges_of_ofCode {method : MethodSite} {c : Code} {f : Flow}
    (made : ofCode method c = .ok f) : List.Forall₂ (fun h r => r.handler = h ∧
      r.target < f.size ∧ c.positions.find? h.start = some r.start ∧
      c.positions.find? h.finish = some r.finish) c.handlers f.ranges := by
  obtain ⟨_, _, positions, ranged⟩ := ofCode_eq made
  rw [positions] at ranged
  exact (mapM_ok_iff.1 ranged).imp fun h r => range_eq

theorem Flow.inside_of_ofCode {method : MethodSite} {c : Code} {f : Flow}
    (made : ofCode method c = .ok f) : f.Inside := by
  refine ⟨(ofCode_eq made).2.1, fun r mem => ?_⟩
  obtain ⟨handler, _, _, inside, _⟩ := exists_left_of_forall₂ (ranges_of_ofCode made) mem
  exact inside

theorem Flow.size_of_ofCode {method : MethodSite} {c : Code} {f : Flow}
    (made : ofCode method c = .ok f) : f.size = c.executed.length := by
  rw [size, (ofCode_eq made).1, List.size_toArray]

/-- The entry for one run of the range of `e`. -/
structure Handler.Part (e : Handler) (At : Label → Nat → Prop) (run : Nat × Nat)
    (part : Handler) : Prop where
  target : part.target = e.target
  catchType : part.catchType = e.catchType
  start : At part.start run.1
  finish : At part.finish run.2

theorem Handler.Part.mono {e part : Handler} {At At' : Label → Nat → Prop} {run : Nat × Nat}
    (h : e.Part At run part) (imp : ∀ l i, At l i → At' l i) : e.Part At' run part :=
  ⟨h.target, h.catchType, imp _ _ h.start, imp _ _ h.finish⟩

namespace Reframe

variable {h : Hierarchy} {owner : String} {m : Method} {c : Code} {p : Prepared}

theorem prepare_eq (made : prepare h owner m c = .ok p) :
    p.analysis.hierarchy = h ∧
      Flow.ofCode ⟨owner, owner ++ "." ++ m.name ++ m.desc⟩ c = .ok p.analysis.flow ∧
      ∃ params, p.analysis.hints = hintStates c p.analysis.flow.positions p.analysis.flow.size
        (localsNeeded c params) ∧
      localsNeeded c params ≤ p.entry.locals.length := by
  obtain ⟨d, _, made⟩ := bind_ok_iff.1 made
  obtain ⟨flow, ofCode, made⟩ := bind_ok_iff.1 made
  obtain ⟨targets, _, made⟩ := bind_ok_iff.1 made
  cases made
  exact ⟨rfl, ofCode, _, rfl, le_length_expandLocals ..⟩

theorem hintStates_eq_empty (noFrames : c.frames.getD [] = []) (noHints : c.hints = [])
    (positions : Positions) (count maxLocals : Nat) :
    hintStates c positions count maxLocals = ∅ := by
  unfold hintStates
  dsimp only
  split
  · rename_i frames
    rw [frames] at noFrames
    cases noFrames
  · rw [noHints]
    rfl

theorem inside_of_prepare (made : prepare h owner m c = .ok p) : p.analysis.flow.Inside := by
  obtain ⟨_, flow, _⟩ := prepare_eq made
  exact Flow.inside_of_ofCode flow

theorem roomy_of_prepare (made : prepare h owner m c = .ok p) :
    p.analysis.Roomy p.entry.locals.length := by
  obtain ⟨_, flow, params, _, enough⟩ := prepare_eq made
  obtain ⟨insns, _⟩ := Flow.ofCode_eq flow
  intro i insn found
  rw [insns, List.getElem?_toArray] at found
  have mem : insn ∈ c.insns := List.mem_of_mem_filter (List.mem_of_getElem? found)
  exact Nat.le_trans (room_le_localsNeeded mem params) enough

theorem sound_of_prepare (noFrames : c.frames.getD [] = []) (noHints : c.hints = [])
    (made : prepare h owner m c = .ok p) : p.analysis.Sound p.entry.locals.length := by
  refine ⟨fun i => ?_, inside_of_prepare made, roomy_of_prepare made⟩
  obtain ⟨_, _, _, hints, _⟩ := prepare_eq made
  rw [hints, hintStates_eq_empty noFrames noHints]
  exact Std.TreeMap.getElem?_emptyc

/-- The instructions in front of which a frame stands, each with its state. -/
def framedStates (p : Prepared) (done : Progress) : List (Nat × State) :=
  (List.range p.analysis.flow.size).filterMap fun i =>
    (framedState p.analysis.flow done.states (Std.TreeSet.ofList p.targets) i).map (i, ·)

theorem framedStates_cases {done : Progress} {x : Nat × State} (mem : x ∈ framedStates p done) :
    stateAt done.states x.1 = some x.2 ∨
      stateAt done.states x.1 = none ∧ x.2 = deadState := by
  obtain ⟨i, _, found⟩ := List.mem_filterMap.1 mem
  obtain ⟨s, framed, rfl⟩ := Option.map_eq_some_iff.1 found
  unfold framedState at framed
  split at framed
  · rename_i known
    split at framed
    · cases framed
      exact .inl known
    · cases framed
  · rename_i unknown
    split at framed
    · exact .inr ⟨unknown, (Option.some.inj framed).symm⟩
    · cases framed

section

variable {Inv : Labelling → Prop} {last : Nat} (allows : Labelling.Allows Inv last)

include allows

theorem keeps_siteLabels (n : Nat) (insns : List Insn) (inside : n + insns.length ≤ last)
    (sites : Std.TreeMap Nat Label) :
    Labelling.Keeps Inv (siteLabels n insns sites) fun _ _ => True := by
  induction insns generalizing n sites with
  | nil => exact .pure fun _ => trivial
  | cons insn rest ih =>
    rw [List.length_cons] at inside
    have skip := ih (n + 1) (by omega) sites
    rw [siteLabels.eq_def]
    dsimp only
    split
    · split
      · refine .bind (Labelling.keeps_labelAt (allows n (by omega))) fun label => ?_
        exact .mono (ih (n + 1) (by omega) _) fun _ _ _ _ _ _ => trivial
      · exact skip
    · exact skip

theorem keeps_liveHandlers (positions : Positions) (live : Nat → Bool) (r : HandlerRange)
    (start : positions.find? r.handler.start = some r.start)
    (finish : positions.find? r.handler.finish = some r.finish) (inside : r.finish ≤ last) :
    Labelling.Keeps Inv (liveHandlers live r) fun parts s =>
      List.Forall₂ (r.handler.Part fun l i => positions.find? l = some i ∨ s.known[i]? = some l)
        (liveRuns live r.start r.finish) parts := by
  refine Labelling.keeps_mapM
    (R := fun run part s => r.handler.Part
      (fun l i => positions.find? l = some i ∨ s.known[i]? = some l) run part)
    (fun run part s s' grown h => h.mono fun l i => Or.imp_right (grown i l)) ?_
  rintro ⟨first, behind⟩ mem
  obtain ⟨_, order, high⟩ := (maximalRuns_liveRuns live r.start r.finish).inside _ mem
  dsimp only at order high ⊢
  split
  · rename_i whole
    exact .pure fun s => ⟨rfl, rfl, .inl (whole.1 ▸ start), .inl (whole.2 ▸ finish)⟩
  · refine .bind (Labelling.keeps_labelAt (allows first (by omega))) fun startLabel => ?_
    refine .bind (Labelling.keeps_labelAt (allows behind (by omega))) fun finishLabel => ?_
    exact .pure fun s s' grown known s'' grown' known' =>
      ⟨rfl, rfl, .inr (grown' _ _ known'), .inr (grown _ _ known)⟩

theorem keeps_labelledFrames (f : Flow) (inside : f.size ≤ last) (states : States)
    (targets : Std.TreeSet Nat) :
    Labelling.Keeps Inv (labelledFrames f states targets) fun frames s =>
      List.Forall₂ (fun x g => s.known[x.1]? = some g.1 ∧ g.2 = x.2.toFrame)
        ((List.range f.size).filterMap fun i =>
          (framedState f states targets i).map (i, ·)) frames := by
  refine Labelling.keeps_mapM (R := fun (x : Nat × State) (g : LabelledFrame) s =>
      s.known[x.1]? = some g.1 ∧ g.2 = x.2.toFrame)
    (fun x g s s' grown h => ⟨grown _ _ h.1, h.2⟩) ?_
  rintro ⟨i, state⟩ mem
  obtain ⟨j, listed, found⟩ := List.mem_filterMap.1 mem
  obtain ⟨_, _, same⟩ := Option.map_eq_some_iff.1 found
  cases same
  have low := List.mem_range.1 listed
  refine .bind (Labelling.keeps_labelAt (allows i (by omega))) fun label => ?_
  exact .pure fun s s' grown known => ⟨grown _ _ known, rfl⟩

end

theorem labels_of_prepare {Inv : Labelling → Prop} (made : prepare h owner m c = .ok p)
    (allows : Labelling.Allows Inv c.executed.length)
    (start : Inv (Labelling.ofPositions c.positions c.nextLabel)) : Inv p.labels := by
  obtain ⟨d, _, made⟩ := bind_ok_iff.1 made
  obtain ⟨flow, ofCode, made⟩ := bind_ok_iff.1 made
  obtain ⟨targets, _, made⟩ := bind_ok_iff.1 made
  cases made
  obtain ⟨insns, _, positions, _⟩ := Flow.ofCode_eq ofCode
  refine (keeps_siteLabels allows 0 flow.insns.toList ?_ ∅ _ ?_).1
  · rw [insns]
    exact Nat.le_of_eq (Nat.zero_add _)
  · rwa [positions]

/-- The body that comes out, in terms of the labels that were used, of which those that the
analysis started with are a part. -/
theorem withFrames_from {Inv : Labelling → Prop} (made : prepare h owner m c = .ok p)
    (allows : Labelling.Allows Inv c.executed.length) (inv : Inv p.labels) (done : Progress) :
    ∃ s : Labelling, Inv s ∧ p.labels.Extends s ∧ (p.withFrames done c).nextLabel = s.next ∧
      (p.withFrames done c).insns = Labelling.bindPending s.pending 0
        (buryDead (fun i => (stateAt done.states i).isSome) p.analysis.flow.size 0 c.insns []) [] ∧
      (∃ parts : List (List Handler), (p.withFrames done c).handlers = parts.flatten ∧
        List.Forall₂ (fun (r : HandlerRange) => List.Forall₂
          (r.handler.Part fun l i => c.positions.find? l = some i ∨ s.known[i]? = some l)
          (liveRuns (fun i => (stateAt done.states i).isSome) r.start r.finish))
          p.analysis.flow.ranges parts) ∧
      ∃ frames, (p.withFrames done c).frames = some frames ∧
        List.Forall₂ (fun x g => s.known[x.1]? = some g.1 ∧ g.2 = x.2.toFrame)
          (framedStates p done) frames := by
  obtain ⟨_, flow, _⟩ := prepare_eq made
  have size := Flow.size_of_ofCode flow
  have ranges := Flow.ranges_of_ofCode flow
  let live := fun i => (stateAt done.states i).isSome
  obtain ⟨inv, before, parts⟩ := Labelling.keeps_mapM
    (R := fun (r : HandlerRange) parts s => List.Forall₂
      (r.handler.Part fun l i => c.positions.find? l = some i ∨ s.known[i]? = some l)
      (liveRuns live r.start r.finish) parts)
    (fun r parts s s' grown held => held.imp fun run part held =>
      held.mono fun l i => Or.imp_right (grown i l))
    (fun r mem => by
      obtain ⟨handler, _, rfl, _, starts, finishes⟩ := exists_left_of_forall₂ ranges mem
      have inside := (Code.stands_of_find? finishes).le
      rw [Nat.zero_add, List.countP_eq_length_filter] at inside
      exact keeps_liveHandlers allows c.positions live r starts finishes inside)
    p.labels inv
  obtain ⟨inv, grown, framed⟩ := keeps_labelledFrames allows p.analysis.flow (Nat.le_of_eq size)
    done.states (Std.TreeSet.ofList p.targets) _ inv
  refine ⟨_, inv, fun i l known => grown i l (before i l known), rfl, rfl, ⟨_, rfl, ?_⟩, _, rfl,
    framed⟩
  exact parts.imp fun r parts held => held.imp fun run part held =>
    held.mono fun l i => Or.imp_right (grown i l)

theorem withFrames_eq {Inv : Labelling → Prop} (made : prepare h owner m c = .ok p)
    (allows : Labelling.Allows Inv c.executed.length)
    (start : Inv (Labelling.ofPositions c.positions c.nextLabel)) (done : Progress) :
    ∃ s : Labelling, Inv s ∧ (p.withFrames done c).nextLabel = s.next ∧
      (p.withFrames done c).insns = Labelling.bindPending s.pending 0
        (buryDead (fun i => (stateAt done.states i).isSome) p.analysis.flow.size 0 c.insns []) [] ∧
      (∃ parts : List (List Handler), (p.withFrames done c).handlers = parts.flatten ∧
        List.Forall₂ (fun (r : HandlerRange) => List.Forall₂
          (r.handler.Part fun l i => c.positions.find? l = some i ∨ s.known[i]? = some l)
          (liveRuns (fun i => (stateAt done.states i).isSome) r.start r.finish))
          p.analysis.flow.ranges parts) ∧
      ∃ frames, (p.withFrames done c).frames = some frames ∧
        List.Forall₂ (fun x g => s.known[x.1]? = some g.1 ∧ g.2 = x.2.toFrame)
          (framedStates p done) frames := by
  obtain ⟨s, inv, _, rest⟩ := withFrames_from made allows (labels_of_prepare made allows start) done
  exact ⟨s, inv, rest⟩

theorem stands_of_known {labels : Labelling} (consistent : labels.Consistent c.positions)
    {i : Nat} {l : Label} (known : labels.known[i]? = some l) (inside : i ≤ c.executed.length)
    (live : Nat → Bool) (count : Nat) :
    Stands l i 0
      (Labelling.bindPending labels.pending 0 (buryDead live count 0 c.insns []) []) := by
  rcases consistent.bound i l known with found | pending
  · exact ((Code.stands_of_find? found).buryDead live count).bindPending labels.pending
  · refine stands_bindPending pending (Nat.zero_le i) ?_
    rw [Nat.zero_add, countP_buryDead, List.countP_eq_length_filter]
    exact inside

theorem lt_size_of_framed {done : Progress} {x : Nat × State} (mem : x ∈ framedStates p done) :
    x.1 < p.analysis.flow.size := by
  obtain ⟨i, listed, state⟩ := List.mem_filterMap.1 mem
  obtain ⟨_, _, rfl⟩ := Option.map_eq_some_iff.1 state
  exact List.mem_range.1 listed

theorem ascending_framedStates (p : Prepared) (done : Progress) :
    (framedStates p done).Pairwise fun x y => x.1 < y.1 := by
  refine List.Pairwise.filterMap _ (fun i j less x hx y hy => ?_) List.pairwise_lt_range
  obtain ⟨_, _, rfl⟩ := Option.map_eq_some_iff.1 hx
  obtain ⟨_, _, rfl⟩ := Option.map_eq_some_iff.1 hy
  exact less

theorem frames_withFrames (made : prepare h owner m c = .ok p) (done : Progress) :
    ∃ frames, (p.withFrames done c).frames = some frames ∧
      List.Forall₂ (fun x g => Stands g.1 x.1 0 (p.withFrames done c).insns ∧
        g.2 = x.2.toFrame) (framedStates p done) frames := by
  obtain ⟨_, flow, _⟩ := prepare_eq made
  obtain ⟨s, consistent, _, insns, _, frames, same, framed⟩ := withFrames_eq made
    (Labelling.allows_consistent _ _) (Labelling.consistent_ofPositions _ _) done
  refine ⟨frames, same, forall₂_imp_mem framed fun x mem g _ ⟨known, type⟩ => ⟨?_, type⟩⟩
  have inside := lt_size_of_framed mem
  rw [Flow.size_of_ofCode flow] at inside
  rw [insns]
  exact stands_of_known consistent known (Nat.le_of_lt inside) _ _

theorem maxStack_le_withMaxima {done : Progress} (fits : done.maxStack < 65536) :
    done.maxStack ≤ (p.withMaxima done c).maxStack.toNat := by
  show _ ≤ (UInt16.ofNat done.maxStack).toNat
  exact Nat.le_of_eq (UInt16.toNat_ofNat_of_lt' fits).symm

theorem maxStack_le_withFrames {done : Progress} (fits : done.maxStack < 65536) :
    done.maxStack ≤ (p.withFrames done c).maxStack.toNat := by
  show _ ≤ (UInt16.ofNat _).toNat
  split
  · rw [UInt16.toNat_ofNat_of_lt' (Nat.max_lt.2 ⟨fits, by decide⟩)]
    exact Nat.le_max_left ..
  · exact Nat.le_of_eq (UInt16.toNat_ofNat_of_lt' fits).symm

end Reframe

/-- A recomputed body rests on a fixpoint of its states: its stack is high enough for them, and its
frames are theirs. -/
theorem fixpoint_reframe {h : Hierarchy} {owner : String} {m : Method} {c c' : Code}
    {withFrames : Bool} (noFrames : c.frames.getD [] = []) (noHints : c.hints = [])
    (typed : ∀ p, Reframe.prepare h owner m c = .ok p → p.analysis.Typed p.entry)
    (run : reframe h owner m c withFrames = .ok c') :
    ∃ p done, Reframe.prepare h owner m c = .ok p ∧ p.settle = .ok done ∧
      p.analysis.Fixpoint p.entry done ∧
      (done.maxStack < 65536 → done.maxStack ≤ c'.maxStack.toNat) ∧
      ∃ frames, c'.frames = some frames ∧
        List.Forall₂ (fun x g => Stands g.1 x.1 0 c'.insns ∧ g.2 = x.2.toFrame)
          (if withFrames then Reframe.framedStates p done else []) frames := by
  obtain ⟨p, made, run⟩ := bind_ok_iff.1 run
  obtain ⟨done, settled, run⟩ := bind_ok_iff.1 run
  cases run
  refine ⟨p, done, made, settled, ?_, ?_⟩
  · exact Analysis.fixpoint_run (Reframe.sound_of_prepare noFrames noHints made) (typed p made)
      settled
  cases withFrames with
  | false => exact ⟨Reframe.maxStack_le_withMaxima, [], rfl, .nil⟩
  | true => exact ⟨Reframe.maxStack_le_withFrames, Reframe.frames_withFrames made done⟩

/-- `null` on one path, a string on the other, and a handler where both join. -/
def joiningCode : Code :=
  { Code.ofInsns [.label ⟨0⟩, .var Opcode.iload 0, .jump Opcode.ifeq ⟨1⟩, .simple 0x01,
      .jump Opcode.goto ⟨2⟩, .label ⟨1⟩, .ldc (.string "text"), .label ⟨2⟩,
      .simple Opcode.areturn] with
    handlers := [⟨⟨0⟩, ⟨2⟩, ⟨2⟩, none⟩] }

def joiningMethod : Method := ⟨⟨9⟩, "pick", "(Z)Ljava/lang/Object;", some joiningCode, []⟩

theorem VType.shallow_object {name : String} (plain : name.toList.head? ≠ some '[') :
    (VType.object name).Shallow := by
  intro element same
  rw [same] at plain
  exact absurd rfl plain

theorem State.Shallow.replaceTop {m : MethodSite} {i n : Nat} {pushes : List VType}
    {s after : State} (shallow : s.Shallow) (pushed : ∀ t ∈ pushes, t.Shallow)
    (run : m.replaceTop i n pushes s = .ok after) : after.Shallow := by
  unfold MethodSite.replaceTop at run
  split at run
  · cases run
  · cases run
    refine ⟨shallow.1, fun t mem => ?_⟩
    rcases List.mem_append.1 mem with mem | mem
    · exact pushed t mem
    · exact shallow.2 t (List.mem_of_mem_drop mem)

theorem typed_of_joining {p : Reframe.Prepared} (entry : p.entry = ⟨[.int], []⟩)
    (insns : p.analysis.flow.insns.toList = joiningCode.executed)
    (caught : p.analysis.flow.ranges.map HandlerRange.caught = [.object "java/lang/Throwable"]) :
    p.analysis.Typed p.entry := by
  have served {i : Nat} {before : State} {insn : Insn}
      (serves : p.analysis.Serves p.entry i before insn) : insn ∈ joiningCode.executed := by
    obtain ⟨_, _, _, _, _, found⟩ := serves
    rw [← insns]
    exact List.mem_of_getElem? (Array.getElem?_toList.trans found)
  constructor
  case shallow =>
    rw [entry]
    exact ⟨fun t mem => List.mem_singleton.1 mem ▸ trivial, fun t mem => nomatch mem⟩
  case caught =>
    intro _ _ _ _ r mem _
    have mem := List.mem_map_of_mem (f := HandlerRange.caught) mem
    rw [caught, List.mem_singleton] at mem
    rw [mem]
    exact VType.shallow_object (by decide)
  case after =>
    intro i before insn after serves shallow run
    have mem := served serves
    have replaced (n : Nat) (pushes : List VType) (pushed : ∀ t ∈ pushes, t.Shallow)
        (run : p.analysis.method.replaceTop i n pushes before = .ok after) : after.Shallow :=
      shallow.replaceTop pushed run
    simp only [joiningCode, Code.executed, Code.ofInsns, List.filter, Insn.isExecuted,
      List.mem_cons, List.not_mem_nil, or_false] at mem
    rcases mem with rfl | rfl | rfl | rfl | rfl | rfl
    · exact replaced 0 [.int] (fun t mem => List.mem_singleton.1 mem ▸ trivial) run
    · exact replaced 1 [] (fun t mem => nomatch mem) run
    · exact replaced 0 [.null] (fun t mem => List.mem_singleton.1 mem ▸ trivial) run
    · cases run
      exact shallow
    · refine replaced 0 [.object "java/lang/String"] (fun t mem => ?_) run
      rw [List.mem_singleton.1 mem]
      exact VType.shallow_object (by decide)
    · exact replaced 1 [] (fun t mem => nomatch mem) run
  case width =>
    intro i before op slot value rest serves store
    have mem := served serves
    simp only [joiningCode, Code.executed, Code.ofInsns, List.filter, Insn.isExecuted,
      List.mem_cons, List.not_mem_nil, or_false, Insn.var.injEq, reduceCtorEq] at mem
    rw [mem.1] at store
    cases store

theorem typed_joiningMethod : ∀ p,
    Reframe.prepare Hierarchy.empty "A" joiningMethod joiningCode = .ok p →
      p.analysis.Typed p.entry := by
  have computed : (match Reframe.prepare Hierarchy.empty "A" joiningMethod joiningCode with
      | .error _ => false
      | .ok p => p.entry = ⟨[.int], []⟩ ∧
          p.analysis.flow.insns.toList = joiningCode.executed ∧
          p.analysis.flow.ranges.map HandlerRange.caught = [.object "java/lang/Throwable"] :
        Bool) = true := by
    decide +kernel
  intro p made
  rw [made] at computed
  obtain ⟨entry, insns, caught⟩ := of_decide_eq_true computed
  exact typed_of_joining entry insns caught

theorem fixpoint_joiningMethod : ∃ c' p done,
    reframe Hierarchy.empty "A" joiningMethod joiningCode true = .ok c' ∧
    Reframe.prepare Hierarchy.empty "A" joiningMethod joiningCode = .ok p ∧
    p.settle = .ok done ∧ p.analysis.Fixpoint p.entry done ∧ c'.maxStack = 1 ∧
    c'.frames = some [(⟨1⟩, ⟨[.int], []⟩), (⟨2⟩, ⟨[.int], [.object objectClass]⟩)] := by
  have computed : (match reframe Hierarchy.empty "A" joiningMethod joiningCode true with
      | .error _ => false
      | .ok c' => c'.maxStack = 1 ∧ c'.frames =
          some [(⟨1⟩, ⟨[.int], []⟩), (⟨2⟩, ⟨[.int], [.object objectClass]⟩)] : Bool) = true := by
    decide +kernel
  split at computed
  · cases computed
  rename_i c' run
  obtain ⟨p, done, made, settled, fixpoint, _⟩ := fixpoint_reframe rfl rfl typed_joiningMethod run
  obtain ⟨height, frames⟩ := of_decide_eq_true computed
  exact ⟨c', p, done, run, made, settled, fixpoint, height, frames⟩

end ClassWeave
