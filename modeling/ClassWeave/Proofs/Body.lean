import Mathlib.Data.List.Forall2
import Mathlib.Tactic.Common
import ClassWeave.Proofs.Body.Marks
import ClassWeave.Proofs.Body.Parts
import ClassWeave.Proofs.Body.Settling

/-!
# Bodies read back

A body is settled first: frames are computed where they are missing and far branches widened. What
is then written reads back as the settled body with every label at its offset, provided that its
counts fit their fields and every place that has to hold an instruction does.
-/

set_option autoImplicit false

namespace ClassWeave

namespace Layout

variable {insns : List Insn} {l : Layout} {moved : Label → Label}

theorem mem_decodedOf {ps : List Placed} {p : Placed} (hp : p ∈ ps)
    (executed : p.insn.isExecuted = true) : ∃ d ∈ decodedOf moved ps, d.1 = p.offset :=
  ⟨_, List.mem_map.2 ⟨p, List.mem_filter.2 ⟨hp, executed⟩, rfl⟩, rfl⟩

theorem Laid.boundary_offset (h : Laid insns l) (x : Label) :
    l.positions.offset x = l.length ∨
      ∃ d ∈ decodedOf moved l.placed, d.1 = l.positions.offset x := by
  have found : ∀ p ∈ l.placed,
      p.offset = l.length ∨ ∃ d ∈ decodedOf moved l.placed, d.1 = p.offset := by
    intro p hp
    rcases h.chain.boundary hp with last | ⟨q, hq, executed, same⟩
    · exact .inl last
    · exact .inr (same ▸ mem_decodedOf hq executed)
  rw [Positions.offset]
  rcases hx : l.positions.find? x with _ | n
  · -- an unbound label counts as the beginning
    rcases hps : l.placed with _ | ⟨p, ps⟩
    · have chain := h.chain
      rw [hps] at chain
      exact .inl chain.symm
    · have chain := h.chain
      rw [hps] at chain
      have first := found p (by rw [hps]; exact List.mem_cons_self ..)
      rwa [chain.1, hps] at first
  · obtain ⟨p, hp, _, rfl⟩ := h.mem_of_find? hx
    exact found p hp

end Layout

def Limits.Names (limits : Limits) : Prop :=
  ∀ name ∈ ["Code", "StackMapTable", "LineNumberTable", "LocalVariableTable",
    "LocalVariableTypeTable", BootstrapTable.attributeName], limits.text name

structure Code.Within (limits : Limits) (c : Code) : Prop where
  insns : ∀ i ∈ c.insns, i.Within limits
  handlers : ∀ h ∈ c.handlers, ∀ name, h.catchType = some name → limits.text name
  locals : ∀ v ∈ c.locals, limits.text v.name ∧ limits.text v.desc
  frames : ∀ f ∈ c.frames.getD [], f.2.Within limits

namespace ClassFile

namespace BodyTarget

def encodeSettled (t : BodyTarget) (c : Code) (l : Layout) : Tables.Growth Bytes := do
  if 65535 < l.length then
    throw (.codeTooLarge (t.owner ++ "." ++ t.method.name ++ t.method.desc) l.length)
  let bytes ← l.emit
  let handlers ← c.handlers.mapM (encodeHandler l.positions)
  let table := handlers.filterMap id
  let frames ← encodeFrames t l.positions c
  let lines := encodeLines l
  let plain ← encodeLocals l.positions "LocalVariableTable" (c.locals.filter fun v => !v.generic)
  let generic ← encodeLocals l.positions "LocalVariableTypeTable" (c.locals.filter (·.generic))
  let attributes ← encodeAttributes (frames ++ lines ++ plain ++ generic)
  return Bytes.be 2 c.maxStack.toNat ++ Bytes.be 2 c.maxLocals.toNat ++
    Bytes.be 4 bytes.length ++ bytes ++ Bytes.be 2 table.length ++ table.flatten ++ attributes

theorem encodeCode_eq (t : BodyTarget) (code : Code) :
    encodeCode t code = t.settle code >>= fun s => t.encodeSettled s.1 s.2 := by
  unfold encodeCode settle
  dsimp only
  split
  · rw [bind_assoc]
    rfl
  · rw [bind_assoc]
    rfl

/-- Everything that the stored form of a settled body cannot say by itself: counts that fit their
fields, constants that a reader resolves, and places that have to hold an instruction. -/
structure SettledFit (t : BodyTarget) (c : Code) (l : Layout) : Prop where
  resolvable : ∀ i ∈ c.insns, i.Resolvable
  targets : ∀ i ∈ c.insns, l.TargetsInside i
  handlers : ∀ h ∈ c.handlers, h.isLive l.positions = true → l.positions.offset h.target < l.length
  handlerCount : (c.handlers.filter (Handler.isLive l.positions)).length < 65536
  frames : t.FramesFit l.length (t.storedFrames l.positions c)
  lineCount : (storedLines l).length < 65536
  plainCount : (c.locals.filter fun v => !v.generic).length < 65536
  genericCount : (c.locals.filter (·.generic)).length < 65536

def firstMarks (c : Code) (l : Layout) : Offsets :=
  startMarks (Layout.decodedOf l.positions.moved l.placed)
    ((c.handlers.filter (Handler.isLive l.positions)).map (Handler.relabel l.positions.moved))

def readTables (t : BodyTarget) (c : Code) (l : Layout) : BodyTables :=
  let moved := l.positions.moved
  let placed := fun v => LocalVariable.placed l.positions v
  (((BodyTables.withFrames ⟨firstMarks c l, ∅, [], []⟩
    ((t.storedFrames l.positions c).map fun g => (g.1, g.2.relabel moved))).withLines
      (storedLines l)).withLocals
        ((c.locals.filter fun v => !v.generic).map placed)).withLocals
          ((c.locals.filter (·.generic)).map placed)

def readBack (t : BodyTarget) (c : Code) (l : Layout) : Code :=
  assembled c.maxStack c.maxLocals (Layout.decodedOf l.positions.moved l.placed)
    ((c.handlers.filter (Handler.isLive l.positions)).map (Handler.relabel l.positions.moved))
    (t.readTables c l) l.length

section

variable {t : BodyTarget} {c : Code} {l : Layout} {f : Tables}

theorem number_moved {x : Label} (small : l.positions.offset x < 4294967296) :
    (l.positions.moved x).number.toNat = l.positions.offset x :=
  UInt32.toNat_ofNat_of_lt' small

theorem boundary_readTables (laid : Layout.Laid c.insns l) (short : l.length ≤ 65535) :
    ∀ n ∈ (t.readTables c l).marks, n = l.length ∨
      ∃ d ∈ Layout.decodedOf l.positions.moved l.placed, d.1 = n := by
  have within : l.positions.Within l.length := fun _ _ h => laid.le_length h
  have small : ∀ x, l.positions.offset x < 4294967296 := fun x => by
    have := within.offset_le x
    omega
  have place : ∀ x, l.positions.offset x = l.length ∨
      ∃ d ∈ Layout.decodedOf l.positions.moved l.placed, d.1 = l.positions.offset x :=
    laid.boundary_offset
  have moved : ∀ x n, (l.positions.moved x).number.toNat = n → n = l.length ∨
      ∃ d ∈ Layout.decodedOf l.positions.moved l.placed, d.1 = n := by
    intro x n same
    rw [number_moved (small x)] at same
    exact same ▸ place x
  have placed : ∀ (vs : List LocalVariable) n,
      (∃ x ∈ (vs.map (LocalVariable.placed l.positions)).flatMap fun v => [v.start, v.finish],
        x.number.toNat = n) → n = l.length ∨
      ∃ d ∈ Layout.decodedOf l.positions.moved l.placed, d.1 = n := by
    rintro vs n ⟨x, hx, same⟩
    obtain ⟨v', hv', hx⟩ := List.mem_flatMap.1 hx
    obtain ⟨v, _, rfl⟩ := List.mem_map.1 hv'
    have start_le := within.offset_le v.start
    have finish_le := within.offset_le v.finish
    rcases List.mem_cons.1 hx with rfl | hx
    · exact moved v.start n same
    · rw [List.mem_singleton.1 hx, LocalVariable.placed] at same
      have ends : l.positions.offset v.start +
          (l.positions.offset v.finish - l.positions.offset v.start) < 4294967296 := by omega
      have same : _ = n := (UInt32.toNat_ofNat_of_lt' ends).symm.trans same
      by_cases forward : l.positions.offset v.start ≤ l.positions.offset v.finish
      · rw [← same, Nat.add_sub_cancel' forward]
        exact place v.finish
      · rw [← same, Nat.sub_eq_zero_of_le (by omega), Nat.add_zero]
        exact place v.start
  intro n hn
  simp only [readTables, firstMarks, BodyTables.mem_withLocals, BodyTables.marks_withLines,
    BodyTables.mem_withFrames, mem_startMarks] at hn
  rcases hn with (((⟨x, hx, same⟩ | ⟨x, hx, same⟩) | ⟨g, hg, named⟩) | hn) | hn
  · obtain ⟨d, hd, hx⟩ := List.mem_flatMap.1 hx
    obtain ⟨p, _, rfl⟩ := List.mem_map.1 hd
    dsimp only at hx
    rw [Insn.targets_relabel] at hx
    obtain ⟨y, _, rfl⟩ := List.mem_map.1 hx
    exact moved y n same
  · obtain ⟨h', hh', hx⟩ := List.mem_flatMap.1 hx
    obtain ⟨h, _, rfl⟩ := List.mem_map.1 hh'
    simp only [Handler.relabel, List.mem_cons, List.not_mem_nil, or_false] at hx
    rcases hx with rfl | rfl | rfl
    · exact moved h.start n same
    · exact moved h.finish n same
    · exact moved h.target n same
  · obtain ⟨g', hg', rfl⟩ := List.mem_map.1 hg
    rcases named with rfl | ⟨x, hx, same⟩
    · obtain ⟨fr, _, rfl⟩ := mem_storedFrames hg'
      exact place fr.1
    · rw [uninitSites_relabel] at hx
      obtain ⟨y, _, rfl⟩ := List.mem_map.1 hx
      exact moved y n same
  · exact placed _ n hn
  · exact placed _ n hn

def FramesRead (t : BodyTarget) (c : Code) (l : Layout) (f : Tables)
    (attributes : List Attribute) : Prop :=
  attributes = [] ∧ t.storedFrames l.positions c = [] ∨
    ∃ data, attributes = [⟨"StackMapTable", data⟩] ∧ decodeFrames (t.context f) l.length data =
      .ok ((t.storedFrames l.positions c).map fun g => (g.1, g.2.relabel l.positions.moved))

def LocalsRead (l : Layout) (f : Tables) (name : String) (generic : Bool)
    (locals : List LocalVariable) (attributes : List Attribute) : Prop :=
  attributes = [] ∧ locals = [] ∨ ∃ data, attributes = [⟨name, data⟩] ∧
    (Reader.counted (readLocal f.pool l.length generic)).runOn data =
      .ok (locals.map fun v => some (v.placed l.positions))

theorem foldlM_frames {attributes : List Attribute} (h : FramesRead t c l f attributes)
    (marks : Offsets) :
    attributes.foldlM (addTable (t.context f) l.length) ⟨marks, ∅, [], []⟩ =
      .ok (BodyTables.withFrames ⟨marks, ∅, [], []⟩
        ((t.storedFrames l.positions c).map fun g => (g.1, g.2.relabel l.positions.moved))) := by
  rcases h with ⟨rfl, none⟩ | ⟨data, rfl, h⟩
  · rw [none]
    rfl
  · rw [List.foldlM_cons, addTable_frames h]
    rfl

theorem foldlM_lines {ctx : BodyContext} (short : l.length ≤ 65535)
    (count : (storedLines l).length < 65536) (known : BodyTables) :
    (encodeLines l).foldlM (addTable ctx l.length) known =
      .ok (known.withLines (storedLines l)) := by
  have inside : ∀ e ∈ storedLines l, e.1 < l.length := fun e he => lt_of_mem_storedLines he
  rw [encodeLines_eq]
  split
  · rename_i none
    rw [List.isEmpty_iff.1 none]
    rfl
  · have read := readLines_encode (fun e he => by have := inside e he; omega) count
    rw [List.foldlM_cons, addTable_lines read inside]
    rfl

theorem foldlM_locals {attributes : List Attribute} {locals : List LocalVariable} {name : String}
    {generic : Bool} (kind : name = "LocalVariableTable" ∧ generic = false ∨
      name = "LocalVariableTypeTable" ∧ generic = true)
    (h : LocalsRead l f name generic locals attributes) (known : BodyTables) :
    attributes.foldlM (addTable (t.context f) l.length) known =
      .ok (known.withLocals (locals.map fun v => v.placed l.positions)) := by
  rcases h with ⟨rfl, rfl⟩ | ⟨data, rfl, h⟩
  · rw [BodyTables.withLocals, List.map_nil, List.append_nil]
    rfl
  · have read : (Reader.counted (readLocal (t.context f).pool l.length generic)).runOn data =
        .ok ((locals.map fun v => v.placed l.positions).map some) := by
      rw [List.map_map]
      exact h
    rw [List.foldlM_cons, addTable_locals kind read]
    rfl

theorem FramesRead.length_le {frames : List Attribute} (h : FramesRead t c l f frames) :
    frames.length ≤ 1 := by
  rcases h with ⟨rfl, _⟩ | ⟨_, rfl, _⟩ <;> simp

theorem LocalsRead.length_le {name : String} {generic : Bool} {locals : List LocalVariable}
    {attributes : List Attribute} (h : LocalsRead l f name generic locals attributes) :
    attributes.length ≤ 1 := by
  rcases h with ⟨rfl, _⟩ | ⟨_, rfl, _⟩ <;> simp

theorem length_encodeLines_le (l : Layout) : (encodeLines l).length ≤ 1 := by
  rw [encodeLines_eq]
  split <;> simp

theorem foldlM_attributes {frames plain generic : List Attribute} (short : l.length ≤ 65535)
    (count : (storedLines l).length < 65536) (hframes : FramesRead t c l f frames)
    (hplain : LocalsRead l f "LocalVariableTable" false (c.locals.filter fun v => !v.generic) plain)
    (hgeneric :
      LocalsRead l f "LocalVariableTypeTable" true (c.locals.filter (·.generic)) generic) :
    (frames ++ encodeLines l ++ plain ++ generic).foldlM (addTable (t.context f) l.length)
      ⟨firstMarks c l, ∅, [], []⟩ = .ok (t.readTables c l) := by
  have through_lines := foldlM_append_ok (foldlM_frames hframes (firstMarks c l))
    (foldlM_lines short count _)
  have through_plain := foldlM_append_ok through_lines (foldlM_locals (.inl ⟨rfl, rfl⟩) hplain _)
  exact foldlM_append_ok through_plain (foldlM_locals (.inr ⟨rfl, rfl⟩) hgeneric _)

theorem readsAt_settled (fit : t.SettledFit c l) (laid : Layout.Laid c.insns l)
    (short : l.length ≤ 65535) {bytes : Bytes} (hlength : bytes.length = l.length)
    (hdecoded : InsnDecode.decode f.pool f.bootstraps bytes =
      .ok (Layout.decodedOf l.positions.moved l.placed)) {stored : List (Option Bytes)}
    (hstored : List.Forall₂ (HandlerRead l.positions l.length f.pool) c.handlers stored)
    {frames plain generic : List Attribute} (hframes : FramesRead t c l f frames)
    (hplain : LocalsRead l f "LocalVariableTable" false (c.locals.filter fun v => !v.generic) plain)
    (hgeneric : LocalsRead l f "LocalVariableTypeTable" true (c.locals.filter (·.generic)) generic)
    {chunks : List Bytes}
    (hattributes : AttributesRead f.pool chunks (frames ++ encodeLines l ++ plain ++ generic))
    (small : chunks.flatten.length < 4294967296) :
    ReadsAt 0 (readCode (t.context f))
      (Bytes.be 2 c.maxStack.toNat ++ Bytes.be 2 c.maxLocals.toNat ++ Bytes.be 4 bytes.length ++
        bytes ++ Bytes.be 2 (stored.filterMap id).length ++ (stored.filterMap id).flatten ++
        (Bytes.be 2 (frames ++ encodeLines l ++ plain ++ generic).length ++ chunks.flatten))
      (t.readBack c l) := by
  have fits : ∀ a ∈ frames ++ encodeLines l ++ plain ++ generic, a.Fits := fun a ha =>
    Nat.lt_of_le_of_lt (hattributes.length_le ha) small
  have count : (frames ++ encodeLines l ++ plain ++ generic).length < 65536 := by
    have first := hframes.length_le
    have second := length_encodeLines_le l
    have third := hplain.length_le
    have fourth := hgeneric.length_le
    simp only [List.length_append]
    omega
  have handlers := readsAt_handlers hstored fit.handlers
  have handlerCount : (stored.filterMap id).length = ((c.handlers.filter
      (Handler.isLive l.positions)).map (Handler.relabel l.positions.moved)).length :=
    handlers.length_eq
  have table : ∀ o, ReadsAt o (Reader.counted (readHandler f.pool l.length))
      (Bytes.be 2 (stored.filterMap id).length ++ (stored.filterMap id).flatten)
      ((c.handlers.filter (Handler.isLive l.positions)).map
        (Handler.relabel l.positions.moved)) := by
    intro o
    rw [handlerCount]
    exact .counted handlers (by rw [List.length_map]; exact fit.handlerCount)
  have taken := foldlM_attributes short fit.lineCount hframes hplain hgeneric
  have boundary := boundary_readTables (t := t) laid short
  rw [← hlength] at table taken boundary
  rw [readBack, ← hlength]
  have whole : ReadsAt 0 (readCode (t.context f)) _ (assembled c.maxStack c.maxLocals _ _ _ _) :=
    readsAt_readCode (by omega) hdecoded table hattributes fits count taken boundary
  simpa only [List.append_assoc] using whole

theorem grows_encodeSettled {limits : Limits} (names : limits.Names) (within : c.Within limits)
    (shaped : ∀ i ∈ c.insns, i.Shaped) (fit : t.SettledFit c l) (laid : Layout.Laid c.insns l) :
    Grows limits (t.encodeSettled c l) fun f bytes => Layout.Valid f c.insns l →
      bytes.length < 4294967296 → ReadsAt 0 (readCode (t.context f)) bytes (t.readBack c l) := by
  have mem : ∀ p ∈ l.placed, p.insn ∈ c.insns := fun p hp => by
    rw [← laid.insns]
    exact List.mem_map_of_mem hp
  have name := fun n (h : n ∈ _) => names n h
  unfold encodeSettled
  dsimp only
  split
  · exact .bind (P := fun _ _ => False) (.throw _ _) fun _ h => h.elim fun _ h => h.elim
  · rename_i short
    have short : l.length ≤ 65535 := Nat.not_lt.1 short
    have bound : l.positions.Within l.length := fun _ _ h => laid.le_length h
    refine .bind (Layout.grows_emit (fun p hp => shaped _ (mem p hp))
      (fun p hp => within.insns _ (mem p hp)) (fun p hp => fit.resolvable _ (mem p hp))
      (fun p hp => fit.targets _ (mem p hp)) laid.chain short) fun bytes _ => ?_
    refine .bind (.mapM fun h hh => grows_encodeHandler bound (by omega)
      (within.handlers h hh)) fun stored _ => ?_
    refine .bind (grows_encodeFrames bound (by omega) (name _ (by simp)) within.frames fit.frames)
      fun frames hframes => ?_
    have isPlain : ∀ v ∈ c.locals.filter fun v => !v.generic, v.generic = false := fun v hv => by
      simpa using (List.mem_filter.1 hv).2
    have isGeneric : ∀ v ∈ c.locals.filter (·.generic), v.generic = true := fun v hv =>
      (List.mem_filter.1 hv).2
    refine .bind (grows_encodeLocals bound (by omega) (name _ (by simp)) isPlain
      (fun v hv => within.locals v (List.mem_filter.1 hv).1) fit.plainCount) fun plain hplain => ?_
    refine .bind (grows_encodeLocals bound (by omega) (name _ (by simp)) isGeneric
      (fun v hv => within.locals v (List.mem_filter.1 hv).1) fit.genericCount)
      fun generic hgeneric => ?_
    have texts : ∀ a ∈ frames ++ encodeLines l ++ plain ++ generic, limits.text a.name := by
      obtain ⟨_, hframes, _⟩ := hframes
      obtain ⟨_, hplain, _⟩ := hplain
      obtain ⟨_, hgeneric, _⟩ := hgeneric
      intro a ha
      simp only [List.mem_append] at ha
      rcases ha with ((ha | ha) | ha) | ha
      · exact hframes a ha
      · rw [encodeLines_eq] at ha
        split at ha
        · cases ha
        · rw [List.mem_singleton.1 ha]
          exact name _ (by simp)
      · exact hplain a ha
      · exact hgeneric a ha
    refine .bind (grows_encodeAttributes texts) fun attributes _ => ?_
    refine .pure fun f hattributes hgeneric hplain hframes hstored hbytes valid small => ?_
    obtain ⟨chunks, rfl, hattributes⟩ := hattributes
    obtain ⟨hlength, hdecoded⟩ := hbytes valid.sound
    refine readsAt_settled fit laid short hlength hdecoded hstored hframes.2 hplain.2 hgeneric.2
      hattributes ?_
    simp only [List.length_append] at small
    omega

end

end BodyTarget

end ClassFile

end ClassWeave
