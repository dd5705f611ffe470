import Mathlib.Data.List.Forall2
import Mathlib.Tactic.Common
import ClassWeave.Proofs.Body.Moved

/-!
# Decoded bodies, written again

A decoded body that is laid out as it stands fits what it is stored in, apart from the lines and
local variables, which may have come from several tables. It reads back as itself with its labels
moved, but for what the stored form cannot keep apart.
-/

set_option autoImplicit false

namespace ClassWeave

namespace StackMap

theorem Reachable.congr {locals : List VType} {frames frames' : List (Nat × Frame)}
    (h : Reachable locals frames) (same : frames'.map Prod.snd = frames.map Prod.snd) :
    Reachable locals frames' := by
  induction frames generalizing locals frames' with
  | nil =>
    rw [List.map_nil, List.map_eq_nil_iff] at same
    rw [same]
    exact True.intro
  | cons g frames ih =>
    obtain ⟨g', rest, rfl, frame, others⟩ := List.map_eq_cons_iff.1 same
    refine ⟨?_, ?_⟩
    · rw [frame]
      exact h.1
    · rw [frame]
      exact ih h.2 others

end StackMap

/-- The instruction with the keys of a switch in ascending order. -/
def Insn.sortKeys : Insn → Insn
  | .lookupSwitch fallback pairs => .lookupSwitch fallback (sortOn (fun p => p.1.toInt) pairs)
  | insn => insn

theorem Insn.normal_eq_sortKeys {insn : Insn}
    (plain : ∀ op target, insn = .jump op target → op.isShortJump = true) :
    insn.normal = insn.sortKeys := by
  cases insn with
  | jump op target =>
    have short := plain op target rfl
    have ne_goto : op ≠ Opcode.gotoW := by
      rintro rfl
      cases short
    have ne_jsr : op ≠ Opcode.jsrW := by
      rintro rfl
      cases short
    rw [normal, if_neg ne_goto, if_neg ne_jsr, sortKeys]
    intro fallback pairs same
    cases same
  | _ => rfl

namespace Code

/-- The labels that the body names besides binding them. -/
def mentions (c : Code) : List Label :=
  c.insns.flatMap Insn.targets ++ c.handlers.flatMap (fun h => [h.start, h.finish, h.target]) ++
    (c.frames.getD []).flatMap (fun f => f.1 :: ClassFile.uninitSites f.2) ++
    c.locals.flatMap fun v => [v.start, v.finish]

def names (c : Code) : Insn → Bool
  | .label x => c.mentions.contains x
  | _ => true

/-- Plain local variables stand ahead of generic ones, and only some classes have frames. -/
def arranged (keepFrames : Bool) (c : Code) : Code where
  maxStack := c.maxStack
  maxLocals := c.maxLocals
  insns := c.insns
  handlers := c.handlers
  locals := c.locals.filter (fun v => !v.generic) ++ c.locals.filter (·.generic)
  frames := some (if keepFrames then c.frames.getD [] else [])
  hints := c.hints
  nextLabel := c.nextLabel

/-- What the stored form keeps of a body: its parts as they are arranged there, with switch keys in
ascending order and without the labels that no part names. -/
def stored (keepFrames : Bool) (c : Code) : Code :=
  let kept := c.arranged keepFrames
  { kept with insns := (c.insns.filter kept.names).map Insn.sortKeys }

def relabel (f : Label → Label) (c : Code) : Code :=
  { c with
    insns := c.insns.map (Insn.relabel f)
    handlers := c.handlers.map (Handler.relabel f)
    locals := c.locals.map (LocalVariable.relabel f)
    frames := c.frames.map (List.map fun g => (f g.1, g.2.relabel f))
    hints := c.hints.map fun g => (f g.1, g.2.relabel f) }

end Code

def Insn.isLine : Insn → Bool
  | .line _ => true
  | _ => false

namespace ClassFile

theorem length_storedLines_le {insns : List Insn} {l : Layout} (laid : Layout.Laid insns l) :
    (storedLines l).length ≤ insns.countP Insn.isLine := by
  rw [← laid.insns, List.countP_map, storedLines, List.length_filterMap_eq_countP]
  refine List.countP_mono_left fun p _ stored => ?_
  split at stored
  · rename_i n line
    rw [Function.comp, line]
    rfl
  · cases stored

def lineAt (length : Nat) (s : Nat × Insn) : Option (Nat × UInt16) :=
  match s.2 with
  | .line number => if s.1 < length then some (s.1, number) else none
  | _ => none

namespace Moving

variable {limits : Limits} {t : BodyTarget} {g : Tables} {b : BodyParts} {l : Layout}
  {zs : List ((Nat × Insn) × Nat)} (h : Moving limits (t.context g) b l zs)

include h

omit h in
theorem forall_insns {P : Insn → Prop} (marks : ∀ i, ¬ i.isExecuted = true → P i)
    (insns : ∀ d ∈ b.decoded, P d.2) : ∀ i ∈ b.code.insns, P i := by
  intro i hi
  replace hi : i ∈ withMarks b.decoded b.tables b.length := hi
  rw [withMarks_eq, List.mem_append] at hi
  rcases hi with hi | hi
  · obtain ⟨d, hd, hi⟩ := List.mem_flatMap.1 hi
    rcases List.mem_append.1 hi with hi | hi
    · exact marks i (marksAt_flat hi)
    · rw [List.mem_singleton.1 hi]
      exact insns d hd
  · exact marks i (lastMark_flat hi)

theorem inside_of_lt {k : Nat} (hk : k ∈ b.tables.marks) (lt : k < b.length) :
    l.positions.offset (Label.ofNat k) < l.length := by
  obtain ⟨n, hn⟩ := h.exists_moves hk
  rw [h.offset_eq hk hn]
  exact (h.lt_iff hn (.inr ⟨rfl, rfl⟩)).1 lt

theorem marked_target {d : Nat × Insn} (hd : d ∈ b.decoded) {x : Label} (hx : x ∈ d.2.targets) :
    ∃ k ∈ b.tables.marks, k < b.length ∧ x = Label.ofNat k := by
  obtain ⟨k, lt, rfl⟩ := (h.sane.decoded.sane d hd).inside x hx
  have short := h.sane.short
  refine ⟨k, h.sane.started k (mem_startMarks.2 (.inl ⟨_, List.mem_flatMap.2 ⟨d, hd, hx⟩, ?_⟩)), lt,
    rfl⟩
  exact Label.toNat_ofNat (Nat.lt_trans lt short)

theorem marked_handler {e : Handler} (he : e ∈ b.handlers) :
    ∃ i j k, i ∈ b.tables.marks ∧ j ∈ b.tables.marks ∧ k ∈ b.tables.marks ∧ i < j ∧ k < b.length ∧
      e.start = Label.ofNat i ∧ e.finish = Label.ofNat j ∧ e.target = Label.ofNat k := by
  have sane := h.sane.handlers e he
  obtain ⟨i, j, lt, le, hi, hj⟩ := sane.range
  obtain ⟨k, inside, hk⟩ := sane.target
  have short := h.sane.short
  have marked : ∀ x ∈ [e.start, e.finish, e.target], x.number.toNat ∈ b.tables.marks := fun x hx =>
    h.sane.started _ (mem_startMarks.2 (.inr ⟨x, List.mem_flatMap.2 ⟨e, he, hx⟩, rfl⟩))
  have hi' := marked e.start (by simp)
  have hj' := marked e.finish (by simp)
  have hk' := marked e.target (by simp)
  rw [hi, Label.toNat_ofNat (by omega)] at hi'
  rw [hj, Label.toNat_ofNat (by omega)] at hj'
  rw [hk, Label.toNat_ofNat (by omega)] at hk'
  exact ⟨i, j, k, hi', hj', hk', lt, inside, hi, hj, hk⟩

theorem isLive {e : Handler} (he : e ∈ b.handlers) : e.isLive l.positions = true := by
  obtain ⟨i, j, _, hi, hj, _, lt, _, si, sj, _⟩ := h.marked_handler he
  obtain ⟨m, hm⟩ := h.exists_moves hi
  obtain ⟨n, hn⟩ := h.exists_moves hj
  rw [Handler.isLive, si, sj, h.offset_eq hi hm, h.offset_eq hj hn]
  exact decide_eq_true ((h.lt_iff hm hn).1 lt)

theorem marked_local {v : LocalVariable} (hv : v ∈ b.tables.locals) :
    ∃ i j, i ∈ b.tables.marks ∧ j ∈ b.tables.marks ∧ i ≤ j ∧ v.start = Label.ofNat i ∧
      v.finish = Label.ofNat j := by
  obtain ⟨i, j, le, inside, hi, hj⟩ := (h.sane.tables.locals v hv).range
  obtain ⟨hi', hj'⟩ := h.sane.tables.localMarks v hv
  have short := h.sane.short
  rw [hi, Label.toNat_ofNat (by omega)] at hi'
  rw [hj, Label.toNat_ofNat (by omega)] at hj'
  exact ⟨i, j, hi', hj', le, hi, hj⟩

theorem marked_frame {r : Nat × Frame} (hr : r ∈ b.tables.frames) : r.1 ∈ b.tables.marks :=
  h.sane.tables.frameMarks r hr r.1 (.inl rfl)

theorem storedFrames_eq :
    t.storedFrames l.positions b.code = if t.withFrames then
      b.tables.frames.map fun r => (l.positions.offset (Label.ofNat r.1), r.2) else [] := by
  unfold BodyTarget.storedFrames
  have frames : b.code.frames.getD [] = b.tables.frames.map fun r => (Label.ofNat r.1, r.2) := rfl
  rw [frames, List.isEmpty_map, List.map_map]
  by_cases stored : t.withFrames = true
  · have ascending :
        (b.tables.frames.map fun r => (l.positions.offset (Label.ofNat r.1), r.2)).Pairwise
        (fun r r' => (r.1 : Int) < r'.1) := by
      rw [List.pairwise_map]
      refine h.sane.tables.ascending.imp_of_mem fun {r r'} hr hr' lt => ?_
      obtain ⟨m, hm⟩ := h.exists_moves (h.marked_frame hr)
      obtain ⟨n, hn⟩ := h.exists_moves (h.marked_frame hr')
      rw [h.offset_eq (h.marked_frame hr) hm, h.offset_eq (h.marked_frame hr') hn]
      exact Int.ofNat_lt.2 ((h.lt_iff hm hn).1 lt)
    rw [if_pos stored, stored]
    cases frames : b.tables.frames with
    | nil => rfl
    | cons r rest =>
      rw [frames] at ascending
      rw [if_neg (by simp)]
      exact dedupOn_sortOn_of_pairwise ascending
  · rw [if_neg stored, if_pos (by simp [stored])]

theorem settledFit (resolvable : ∀ i ∈ b.code.insns, i.Resolvable)
    (lines : b.code.insns.countP Insn.isLine < 65536)
    (plainCount : (b.code.locals.filter fun v => !v.generic).length < 65536)
    (genericCount : (b.code.locals.filter (·.generic)).length < 65536) :
    t.SettledFit b.code l where
  resolvable := resolvable
  targets := by
    refine forall_insns (fun i mark => ?_) fun d hd x hx n found => ?_
    · cases i <;> first
        | exact absurd rfl mark
        | exact (by simp [Layout.TargetsInside, Insn.targets])
    · obtain ⟨k, marked, lt, rfl⟩ := h.marked_target hd hx
      have inside := h.inside_of_lt marked lt
      rwa [Positions.offset, found] at inside
  handlers e he _ := by
    obtain ⟨_, _, k, _, _, hk, _, lt, _, _, sk⟩ := h.marked_handler he
    rw [sk]
    exact h.inside_of_lt hk lt
  handlerCount := Nat.lt_of_le_of_lt (List.length_filter_le ..) h.sane.handlerCount
  frames := by
    rw [h.storedFrames_eq]
    split
    · refine ⟨fun r hr => ?_, fun d hd => ?_⟩
      · obtain ⟨r', hr', rfl⟩ := List.mem_map.1 hr
        exact h.inside_of_lt (h.marked_frame hr') (h.sane.tables.inside r' hr')
      · refine (h.sane.tables.reachable d hd).congr ?_
        rw [List.map_map]
        rfl
    · exact ⟨List.forall_mem_nil _, fun d hd => True.intro⟩
  lineCount := Nat.lt_of_le_of_lt (length_storedLines_le h.laid) lines
  plainCount := plainCount
  genericCount := genericCount

omit h in
theorem mem_targets_normal {i : Insn} {x : Label} : x ∈ i.normal.targets ↔ x ∈ i.targets := by
  cases i with
  | lookupSwitch fallback pairs =>
    have perm := (sortOn_perm (fun p : Int32 × Label => p.1.toInt) pairs).map Prod.snd
    simp only [Insn.normal, Insn.targets, List.mem_cons, perm.mem_iff]
  | _ => exact Iff.rfl

omit h in
theorem exists_target_decodedOf {f : Label → Label} {ps : List Placed} {Q : Label → Prop} :
    (∃ y ∈ (Layout.decodedOf f ps).flatMap fun d => d.2.targets, Q y) ↔
      ∃ x ∈ (ps.map Placed.insn).flatMap Insn.targets, Q (f x) := by
  constructor
  · rintro ⟨y, hy, hQ⟩
    obtain ⟨d, hd, hy⟩ := List.mem_flatMap.1 hy
    obtain ⟨p, hp, rfl⟩ := List.mem_map.1 hd
    dsimp only at hy
    rw [Insn.targets_relabel] at hy
    obtain ⟨x, hx, rfl⟩ := List.mem_map.1 hy
    have mem : p.insn ∈ ps.map Placed.insn := List.mem_map_of_mem (List.mem_filter.1 hp).1
    exact ⟨x, List.mem_flatMap.2 ⟨p.insn, mem, mem_targets_normal.1 hx⟩, hQ⟩
  · rintro ⟨x, hx, hQ⟩
    obtain ⟨i, hi, hx⟩ := List.mem_flatMap.1 hx
    obtain ⟨p, hp, rfl⟩ := List.mem_map.1 hi
    have executed : p.insn.isExecuted = true := by
      cases hi : p.insn <;> first | rfl | (rw [hi] at hx; cases hx)
    refine ⟨f x, List.mem_flatMap.2 ⟨_,
      List.mem_map_of_mem (List.mem_filter.2 ⟨hp, executed⟩), ?_⟩, hQ⟩
    dsimp only
    rw [Insn.targets_relabel]
    exact List.mem_map_of_mem (mem_targets_normal.2 hx)

theorem number_moved (fits : l.length ≤ 65535) (x : Label) :
    (l.positions.moved x).number.toNat = l.positions.offset x := by
  have within : l.positions.Within l.length := fun _ _ found => h.laid.le_length found
  have := within.offset_le x
  exact BodyTarget.number_moved (by omega)

theorem placed_eq {v : LocalVariable} (hv : v ∈ b.tables.locals) :
    v.placed l.positions = v.relabel l.positions.moved := by
  obtain ⟨i, j, hi, hj, le, si, sj⟩ := h.marked_local hv
  obtain ⟨m, hm⟩ := h.exists_moves hi
  obtain ⟨n, hn⟩ := h.exists_moves hj
  have first := h.offset_eq hi hm
  have second := h.offset_eq hj hn
  have kept : m ≤ n := by
    have := h.lt_iff hn hm
    omega
  have moved : ∀ x, l.positions.moved x = Label.ofNat (l.positions.offset x) := fun _ => rfl
  rw [LocalVariable.placed, LocalVariable.relabel, moved, moved, si, sj, first, second,
    Nat.add_sub_cancel' kept]

theorem map_placed (p : LocalVariable → Bool) :
    (b.code.locals.filter p).map (LocalVariable.placed l.positions) =
      (b.code.locals.filter p).map (LocalVariable.relabel l.positions.moved) :=
  List.map_congr_left fun _ hv => h.placed_eq (List.mem_filter.1 hv).1

theorem filter_isLive : b.code.handlers.filter (Handler.isLive l.positions) = b.code.handlers :=
  List.filter_eq_self.2 fun _ he => h.isLive he

theorem exists_moved (fits : l.length ≤ 65535) {α : Type} (items : List α)
    (labels : α → List Label) (move : α → α)
    (moved : ∀ a, labels (move a) = (labels a).map l.positions.moved) {n : Nat} :
    (∃ y ∈ (items.map move).flatMap labels, y.number.toNat = n) ↔
      ∃ x ∈ items.flatMap labels, l.positions.offset x = n := by
  have all : (items.map move).flatMap labels = (items.flatMap labels).map l.positions.moved := by
    rw [List.flatMap_map, List.map_flatMap]
    exact List.flatMap_congr fun a _ => moved a
  rw [all]
  simp only [List.mem_map, exists_exists_and_eq_and, h.number_moved fits]

theorem exists_frameMarks (fits : l.length ≤ 65535) {n : Nat} :
    (∃ g ∈ (t.storedFrames l.positions b.code).map fun g => (g.1, g.2.relabel l.positions.moved),
      BodyTables.frameMarks g n) ↔
    ∃ x ∈ ((b.code.arranged t.withFrames).frames.getD []).flatMap fun f =>
      f.1 :: uninitSites f.2, l.positions.offset x = n := by
  have each : ∀ r : Nat × Frame, BodyTables.frameMarks
      (l.positions.offset (Label.ofNat r.1), r.2.relabel l.positions.moved) n ↔
        ∃ x ∈ Label.ofNat r.1 :: uninitSites r.2, l.positions.offset x = n := by
    intro r
    rw [BodyTables.frameMarks, uninitSites_relabel, eq_comm]
    simp only [List.mem_map, exists_exists_and_eq_and, h.number_moved fits,
      List.exists_mem_cons_iff]
  rw [h.storedFrames_eq, Code.arranged, Option.getD_some]
  split
  · have frames : b.code.frames.getD [] = b.tables.frames.map fun r => (Label.ofNat r.1, r.2) := rfl
    rw [frames, List.map_map]
    simp only [List.mem_map, exists_exists_and_eq_and, Function.comp, each, List.flatMap_map,
      List.mem_flatMap]
    constructor
    · rintro ⟨r, hr, x, hx, same⟩
      exact ⟨x, ⟨r, hr, hx⟩, same⟩
    · rintro ⟨x, ⟨r, hr, hx⟩, same⟩
      exact ⟨r, hr, x, hx, same⟩
  · simp

theorem mem_readTables (fits : l.length ≤ 65535) {n : Nat} :
    n ∈ (t.readTables b.code l).marks ↔
      ∃ x ∈ (b.code.arranged t.withFrames).mentions, l.positions.offset x = n := by
  have insns : (∃ y ∈ (Layout.decodedOf l.positions.moved l.placed).flatMap fun d => d.2.targets,
      y.number.toNat = n) ↔ ∃ x ∈ b.code.insns.flatMap Insn.targets, l.positions.offset x = n := by
    rw [exists_target_decodedOf (Q := fun y => y.number.toNat = n), h.laid.insns]
    simp only [h.number_moved fits]
  have handlers := h.exists_moved fits (n := n) b.code.handlers
    (fun e => [e.start, e.finish, e.target]) (Handler.relabel l.positions.moved) fun _ => rfl
  have locals := fun p => h.exists_moved fits (n := n) (b.code.locals.filter p)
    (fun v => [v.start, v.finish]) (LocalVariable.relabel l.positions.moved) fun _ => rfl
  simp only [BodyTarget.readTables, BodyTarget.firstMarks, BodyTables.mem_withLocals,
    BodyTables.marks_withLines, BodyTables.mem_withFrames, mem_startMarks]
  rw [h.filter_isLive, h.map_placed, h.map_placed, insns, handlers, locals, locals,
    h.exists_frameMarks fits]
  unfold Code.mentions
  simp only [Code.arranged, List.mem_append, List.flatMap_append, or_and_right, exists_or, or_assoc]

theorem marked_mention {keep : Bool} {x : Label} (hx : x ∈ (b.code.arranged keep).mentions) :
    ∃ k ∈ b.tables.marks, x = Label.ofNat k := by
  have short := h.sane.short
  simp only [Code.mentions, Code.arranged, List.mem_append, List.flatMap_append] at hx
  rcases hx with ((hx | hx) | hx) | hx | hx
  · obtain ⟨i, hi, hx⟩ := List.mem_flatMap.1 hx
    exact forall_insns (P := fun i => ∀ x ∈ i.targets, ∃ k ∈ b.tables.marks, x = Label.ofNat k)
      (fun i mark x hx => by cases i <;> first | exact absurd rfl mark | cases hx)
      (fun d hd x hx => by
        obtain ⟨k, marked, _, same⟩ := h.marked_target hd hx
        exact ⟨k, marked, same⟩) i hi x hx
  · obtain ⟨e, he, hx⟩ := List.mem_flatMap.1 hx
    obtain ⟨i, j, k, hi, hj, hk, _, _, si, sj, sk⟩ := h.marked_handler he
    simp only [List.mem_cons, List.not_mem_nil, or_false] at hx
    rcases hx with rfl | rfl | rfl
    · exact ⟨i, hi, si⟩
    · exact ⟨j, hj, sj⟩
    · exact ⟨k, hk, sk⟩
  · obtain ⟨g, hg, hx⟩ := List.mem_flatMap.1 hx
    have hg : g ∈ b.tables.frames.map fun r => (Label.ofNat r.1, r.2) := by
      rw [Option.getD_some] at hg
      split at hg
      · exact hg
      · cases hg
    obtain ⟨r, hr, rfl⟩ := List.mem_map.1 hg
    rcases List.mem_cons.1 hx with rfl | hx
    · exact ⟨r.1, h.marked_frame hr, rfl⟩
    · obtain ⟨k, small, rfl⟩ := (h.sane.tables.frames r hr).sites hx
      refine ⟨k, h.sane.tables.frameMarks r hr k (.inr ⟨_, hx, ?_⟩), rfl⟩
      exact Label.toNat_ofNat (by omega)
  all_goals
    obtain ⟨v, hv, hx⟩ := List.mem_flatMap.1 hx
    obtain ⟨i, j, hi, hj, _, si, sj⟩ := h.marked_local (List.mem_filter.1 hv).1
    simp only [List.mem_cons, List.not_mem_nil, or_false] at hx
    rcases hx with rfl | rfl
    · exact ⟨i, hi, si⟩
    · exact ⟨j, hj, sj⟩

theorem mem_readTables_iff (fits : l.length ≤ 65535) {k n : Nat} (hn : Moves b l zs k n) :
    n ∈ (t.readTables b.code l).marks ↔
      k ∈ b.tables.marks ∧ Label.ofNat k ∈ (b.code.arranged t.withFrames).mentions := by
  rw [h.mem_readTables fits]
  constructor
  · rintro ⟨x, hx, offset⟩
    obtain ⟨j, hj, rfl⟩ := h.marked_mention hx
    obtain ⟨m, hm⟩ := h.exists_moves hj
    rw [h.offset_eq hj hm] at offset
    subst offset
    rw [h.injective hn hm]
    exact ⟨hj, hx⟩
  · rintro ⟨hk, hx⟩
    exact ⟨_, hx, h.offset_eq hk hn⟩

theorem decodedOf_eq {f : Label → Label} :
    Layout.decodedOf f l.placed = zs.map fun z => (z.2, z.1.2.normal.relabel f) := by
  have all : Layout.decodedOf f l.placed = ((spots l.placed).filter (·.2.isExecuted)).map
      fun s => (s.1, s.2.normal.relabel f) := by
    rw [spots, List.filter_map, List.map_map]
    rfl
  have last : ((lastMark b.tables b.length).map (l.length, ·)).filter (·.2.isExecuted) = [] := by
    rw [List.filter_eq_nil_iff]
    intro s hs
    obtain ⟨i, hi, rfl⟩ := List.mem_map.1 hs
    exact lastMark_flat hi
  have each : ∀ z ∈ zs, ((marksAt b.tables z.1.1 ++ [z.1.2]).map (z.2, ·)).filter
      (·.2.isExecuted) = [(z.2, z.1.2)] := by
    intro z hz
    have executed := (h.sane.decoded.sane z.1 (h.mem_decoded hz)).executed
    have marks : ((marksAt b.tables z.1.1).map (z.2, ·)).filter (·.2.isExecuted) = [] := by
      rw [List.filter_eq_nil_iff]
      intro s hs
      obtain ⟨i, hi, rfl⟩ := List.mem_map.1 hs
      exact marksAt_flat hi
    rw [List.map_append, List.filter_append, marks, List.nil_append, List.map_singleton,
      List.filter_singleton, executed]
    rfl
  rw [all, h.moves.spots, List.filter_append, last, List.append_nil, List.filter_flatMap,
    List.flatMap_congr each, ← List.map_eq_flatMap, List.map_map]
  rfl

omit h in
theorem flatMap_of_ascending {α β : Type} (key : α → Nat) {items : List α}
    (ascending : items.Pairwise (key · < key ·)) (f : α → List β) {w : α} (hw : w ∈ items) :
    (items.flatMap fun z => if key z = key w then f z else []) = f w := by
  induction ascending with
  | nil => cases hw
  | @cons z items above _ ih =>
    rw [List.flatMap_cons]
    rcases List.mem_cons.1 hw with rfl | hw
    · have rest : (items.flatMap fun z => if key z = key w then f z else []) = [] := by
        rw [List.flatMap_eq_nil_iff]
        intro y hy
        exact if_neg (Nat.ne_of_gt (above y hy))
      rw [if_pos rfl, rest, List.append_nil]
    · rw [if_neg (Nat.ne_of_lt (above w hw)), List.nil_append, ih hw]

theorem storedLines_eq :
    storedLines l = zs.flatMap fun z => (b.tables.linesAt z.1.1).map (z.2, ·) := by
  have all : storedLines l = (spots l.placed).filterMap (lineAt l.length) := by
    rw [spots, List.filterMap_map]
    rfl
  have last :
      ((lastMark b.tables b.length).map (l.length, ·)).filterMap (lineAt l.length) = [] := by
    unfold lastMark
    split <;> rfl
  have each : ∀ z ∈ zs, ((marksAt b.tables z.1.1 ++ [z.1.2]).map (z.2, ·)).filterMap
      (lineAt l.length) = (b.tables.linesAt z.1.1).map (z.2, ·) := by
    intro z hz
    have executed := (h.sane.decoded.sane z.1 (h.mem_decoded hz)).executed
    have label : ((if b.tables.marks.contains z.1.1 then [Insn.label (Label.ofNat z.1.1)] else
        []).map (z.2, ·)).filterMap (lineAt l.length) = [] := by
      split <;> rfl
    have insn : [(z.2, z.1.2)].filterMap (lineAt l.length) = [] := by
      cases hi : z.1.2 <;> first | rfl | (rw [hi] at executed; cases executed)
    have lines : (((b.tables.linesAt z.1.1).map Insn.line).map (z.2, ·)).filterMap
        (lineAt l.length) = (b.tables.linesAt z.1.1).map (z.2, ·) := by
      rw [List.map_map, List.filterMap_map, ← List.filterMap_eq_map]
      congr 1
      funext number
      exact if_pos (h.inside hz).2
    rw [marksAt, List.map_append, List.map_append, List.filterMap_append, List.filterMap_append,
      label, lines, List.map_singleton, insn, List.append_nil, List.nil_append]
  rw [all, h.moves.spots, List.filterMap_append, last, List.append_nil, List.filterMap_flatMap,
    List.flatMap_congr each]

theorem linesAt_readTables {z : (Nat × Insn) × Nat} (hz : z ∈ zs) :
    (t.readTables b.code l).linesAt z.2 = b.tables.linesAt z.1.1 := by
  have none_before : BodyTables.linesAt
      (BodyTables.withFrames ⟨BodyTarget.firstMarks b.code l, ∅, [], []⟩
        ((t.storedFrames l.positions b.code).map
          fun g => (g.1, g.2.relabel l.positions.moved))) z.2 = [] := by
    simp [BodyTables.linesAt, BodyTables.withFrames]
  have lines : (t.readTables b.code l).linesAt z.2 = _ :=
    BodyTables.linesAt_withLines _ (storedLines l) z.2
  have kept : (storedLines l).filter (fun e => e.1 = z.2) = zs.flatMap fun w =>
      if w.2 = z.2 then (b.tables.linesAt w.1.1).map (w.2, ·) else [] := by
    rw [h.storedLines_eq, List.filter_flatMap]
    refine List.flatMap_congr fun w _ => ?_
    rw [List.filter_map]
    split
    · rename_i same
      rw [List.filter_eq_self.2 (by simp [same])]
    · rename_i other
      rw [List.filter_eq_nil_iff.2 (by simp [other]), List.map_nil]
  have one := flatMap_of_ascending Prod.snd h.moves.ascending
    (fun w => (b.tables.linesAt w.1.1).map (w.2, ·)) hz
  rw [lines, none_before, kept, one, List.map_map, List.nil_append]
  exact List.map_id _

theorem label_eq (fits : l.length ≤ 65535) {k n : Nat} (hn : Moves b l zs k n) :
    (if (t.readTables b.code l).marks.contains n then [Insn.label (Label.ofNat n)] else []) =
      (((if b.tables.marks.contains k then [Insn.label (Label.ofNat k)] else []).filter
        (b.code.arranged t.withFrames).names).map Insn.sortKeys).map
          (Insn.relabel l.positions.moved) := by
  have kept := h.mem_readTables_iff (t := t) fits hn
  simp only [Std.TreeSet.contains_iff_mem, kept]
  by_cases hk : k ∈ b.tables.marks
  · have moved : l.positions.moved (Label.ofNat k) = Label.ofNat n :=
      Positions.moved_of_find? (h.find?_eq hk hn)
    rw [if_pos hk]
    by_cases named : Label.ofNat k ∈ (b.code.arranged t.withFrames).mentions
    · have yes : (b.code.arranged t.withFrames).names (.label (Label.ofNat k)) = true :=
        List.contains_iff_mem.2 named
      rw [if_pos ⟨hk, named⟩, List.filter_singleton, yes, ← moved]
      rfl
    · have no : (b.code.arranged t.withFrames).names (.label (Label.ofNat k)) = false := by
        simpa [Code.names] using named
      rw [if_neg (fun both => named both.2), List.filter_singleton, no]
      rfl
  · rw [if_neg (fun both => hk both.1), if_neg hk]
    rfl

theorem insns_readBack (fits : l.length ≤ 65535) :
    (t.readBack b.code l).insns =
      ((b.code.stored t.withFrames).relabel l.positions.moved).insns := by
  let kept := b.code.arranged t.withFrames
  have insns : b.code.insns = _ := withMarks_eq b.decoded b.tables b.length
  have each : ∀ z ∈ zs, (fun d => marksAt (t.readTables b.code l) d.1 ++ [d.2])
      (z.2, z.1.2.normal.relabel l.positions.moved) =
        (((marksAt b.tables z.1.1 ++ [z.1.2]).filter kept.names).map Insn.sortKeys).map
          (Insn.relabel l.positions.moved) := by
    intro z hz
    have sane := h.sane.decoded.sane z.1 (h.mem_decoded hz)
    have label := h.label_eq (t := t) fits (k := z.1.1) (n := z.2) (.inl ⟨z, hz, rfl, rfl⟩)
    have lines : ((((b.tables.linesAt z.1.1).map Insn.line).filter kept.names).map
        Insn.sortKeys).map (Insn.relabel l.positions.moved) =
          (b.tables.linesAt z.1.1).map Insn.line := by
      rw [List.filter_eq_self.2 (by simp [Code.names]), List.map_map, List.map_map]
      rfl
    have insn : (([z.1.2].filter kept.names).map Insn.sortKeys).map
        (Insn.relabel l.positions.moved) = [z.1.2.normal.relabel l.positions.moved] := by
      have named : kept.names z.1.2 = true := by
        cases hi : z.1.2 <;> first | rfl | (rw [hi] at sane; cases sane.executed)
      rw [List.filter_singleton, named, Insn.normal_eq_sortKeys sane.plain]
      rfl
    dsimp only
    rw [marksAt, marksAt, h.linesAt_readTables hz, label, List.filter_append, List.filter_append,
      List.map_append, List.map_append, List.map_append, List.map_append, lines, insn]
  have last := h.label_eq (t := t) fits (k := b.length) (n := l.length) (.inr ⟨rfl, rfl⟩)
  show withMarks (Layout.decodedOf l.positions.moved l.placed) (t.readTables b.code l) l.length =
    ((b.code.insns.filter kept.names).map Insn.sortKeys).map (Insn.relabel l.positions.moved)
  rw [withMarks_eq, insns, h.decodedOf_eq, ← h.decoded, List.flatMap_map, List.flatMap_map,
    List.flatMap_congr each, List.filter_append, List.map_append, List.map_append,
    List.filter_flatMap, List.map_flatMap, List.map_flatMap, lastMark, last]
  rfl

/-- A decoded body that was written as it stands reads back with its labels moved, arranged as the
stored form has it. -/
theorem readBack_eq (fits : l.length ≤ 65535) :
    t.readBack b.code l = { (b.code.stored t.withFrames).relabel l.positions.moved with
      nextLabel := UInt32.ofNat l.length + 1 } := by
  have insns := h.insns_readBack (t := t) fits
  have locals : (t.readBack b.code l).locals =
      ((b.code.stored t.withFrames).relabel l.positions.moved).locals := by
    show ([] ++ _) ++ _ = List.map _ (_ ++ _)
    rw [List.nil_append, h.map_placed, h.map_placed, List.map_append]
  have handlers : (t.readBack b.code l).handlers =
      ((b.code.stored t.withFrames).relabel l.positions.moved).handlers := by
    show List.map _ (b.code.handlers.filter _) = _
    rw [h.filter_isLive]
    rfl
  have frames : (t.readBack b.code l).frames =
      ((b.code.stored t.withFrames).relabel l.positions.moved).frames := by
    show some (List.map _ (List.map _ (t.storedFrames l.positions b.code))) = _
    rw [h.storedFrames_eq]
    show _ = some (List.map _ (if t.withFrames = true then List.map _ b.tables.frames else []))
    split
    · rw [List.map_map, List.map_map, List.map_map]
      rfl
    · rfl
  unfold Code.relabel at insns locals handlers frames ⊢
  dsimp only at insns locals handlers frames ⊢
  rw [← insns, ← locals, ← handlers, ← frames]
  rfl

end Moving

end ClassFile

end ClassWeave
