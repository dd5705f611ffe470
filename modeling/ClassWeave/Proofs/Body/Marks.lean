import Mathlib.Data.List.Forall2
import Mathlib.Tactic.Common
import ClassWeave.Proofs.Attributes
import ClassWeave.Proofs.Relabel

/-!
# What a reader makes of the parts of a body

The attributes of a body are taken in one after the other. In the end a label is bound at exactly
the offsets that a branch, an exception range, a frame or a local variable names.
-/

set_option autoImplicit false

namespace ClassWeave

namespace ClassFile

def assembled (maxStack maxLocals : UInt16) (decoded : List (Nat × Insn)) (handlers : List Handler)
    (t : BodyTables) (length : Nat) : Code where
  maxStack := maxStack
  maxLocals := maxLocals
  insns := withMarks decoded t length
  handlers := handlers
  locals := t.locals
  frames := some (t.frames.map fun (pc, frame) => (Label.ofNat pc, frame))
  hints := []
  nextLabel := UInt32.ofNat length + 1

def startMarks (decoded : List (Nat × Insn)) (handlers : List Handler) : Offsets :=
  handlers.foldl (fun marks h => markAll marks [h.start, h.finish, h.target])
    (decoded.foldl (fun marks d => markAll marks d.2.targets) (∅ : Offsets))

def starts (decoded : List (Nat × Insn)) : Offsets :=
  decoded.foldl (fun starts d => starts.insert d.1) ∅

theorem mem_insert {marks : Offsets} {n k : Nat} : n ∈ marks.insert k ↔ n = k ∨ n ∈ marks := by
  rw [Std.TreeSet.mem_insert, Std.LawfulEqCmp.compare_eq_iff_eq, eq_comm]

theorem mem_markAll {marks : Offsets} {labels : List Label} {n : Nat} :
    n ∈ markAll marks labels ↔ n ∈ marks ∨ ∃ l ∈ labels, l.number.toNat = n := by
  induction labels generalizing marks with
  | nil => simp [markAll]
  | cons l labels ih =>
    rw [markAll, List.foldl_cons]
    have rest : n ∈ markAll (marks.insert l.number.toNat) labels ↔ _ := ih
    rw [markAll] at rest
    rw [rest, mem_insert, List.exists_mem_cons_iff]
    constructor
    · rintro ((rfl | h) | h)
      · exact .inr (.inl rfl)
      · exact .inl h
      · exact .inr (.inr h)
    · rintro (h | rfl | h)
      · exact .inl (.inr h)
      · exact .inl (.inl rfl)
      · exact .inr h

theorem mem_foldl_markAll {α : Type} {labels : α → List Label} {items : List α} {marks : Offsets}
    {n : Nat} : n ∈ items.foldl (fun marks a => markAll marks (labels a)) marks ↔
      n ∈ marks ∨ ∃ l ∈ items.flatMap labels, l.number.toNat = n := by
  induction items generalizing marks with
  | nil => simp
  | cons a items ih =>
    rw [List.foldl_cons, ih, mem_markAll, List.flatMap_cons, or_assoc]
    simp only [List.mem_append, or_and_right, exists_or]

theorem mem_startMarks {decoded : List (Nat × Insn)} {handlers : List Handler} {n : Nat} :
    n ∈ startMarks decoded handlers ↔
      (∃ l ∈ decoded.flatMap fun d => d.2.targets, l.number.toNat = n) ∨
      ∃ l ∈ handlers.flatMap fun h => [h.start, h.finish, h.target], l.number.toNat = n := by
  rw [startMarks, mem_foldl_markAll, mem_foldl_markAll]
  simp

theorem mem_starts {decoded : List (Nat × Insn)} {n : Nat} :
    n ∈ starts decoded ↔ ∃ d ∈ decoded, d.1 = n := by
  have grown : ∀ (ds : List (Nat × Insn)) (known : Offsets),
      n ∈ ds.foldl (fun starts d => starts.insert d.1) known ↔ n ∈ known ∨ ∃ d ∈ ds, d.1 = n := by
    intro ds
    induction ds with
    | nil => simp
    | cons d ds ih =>
      intro known
      rw [List.foldl_cons, ih, mem_insert, List.exists_mem_cons_iff, eq_comm,
        or_comm (a := d.1 = n), or_assoc]
  rw [starts, grown]
  simp

theorem uninitSites_relabel (f : Label → Label) (frame : Frame) :
    uninitSites (frame.relabel f) = (uninitSites frame).map f := by
  unfold uninitSites Frame.relabel
  rw [← List.map_append, List.filterMap_map, List.map_filterMap]
  congr 1
  funext t
  cases t <;> rfl

namespace BodyTables

def frameMarks (f : Nat × Frame) (n : Nat) : Prop :=
  n = f.1 ∨ ∃ l ∈ uninitSites f.2, l.number.toNat = n

def withFrames (t : BodyTables) (frames : List (Nat × Frame)) : BodyTables :=
  { t with
    marks := frames.foldl (fun marks f => (markAll marks (uninitSites f.2)).insert f.1) t.marks
    frames := frames }

def withLines (t : BodyTables) (lines : List (Nat × UInt16)) : BodyTables :=
  { t with
    lines := lines.foldl (fun lines e => lines.alter e.1 fun known =>
      some (e.2 :: known.getD [])) t.lines }

def withLocals (t : BodyTables) (locals : List LocalVariable) : BodyTables :=
  { t with
    marks := locals.foldl (fun marks v => markAll marks [v.start, v.finish]) t.marks
    locals := t.locals ++ locals }

theorem mem_withFrames {t : BodyTables} {frames : List (Nat × Frame)} {n : Nat} :
    n ∈ (t.withFrames frames).marks ↔ n ∈ t.marks ∨ ∃ f ∈ frames, frameMarks f n := by
  have grown : ∀ (fs : List (Nat × Frame)) (known : Offsets),
      n ∈ fs.foldl (fun marks f => (markAll marks (uninitSites f.2)).insert f.1) known ↔
        n ∈ known ∨ ∃ f ∈ fs, frameMarks f n := by
    intro fs
    induction fs with
    | nil => simp
    | cons f fs ih =>
      intro known
      rw [List.foldl_cons, ih, mem_insert, mem_markAll, List.exists_mem_cons_iff, frameMarks,
        or_left_comm, or_assoc, or_assoc]
  exact grown frames t.marks

theorem mem_withLocals {t : BodyTables} {locals : List LocalVariable} {n : Nat} :
    n ∈ (t.withLocals locals).marks ↔
      n ∈ t.marks ∨ ∃ l ∈ locals.flatMap fun v => [v.start, v.finish], l.number.toNat = n :=
  mem_foldl_markAll

@[simp] theorem marks_withLines (t : BodyTables) (lines : List (Nat × UInt16)) :
    (t.withLines lines).marks = t.marks := rfl

def linesAt (t : BodyTables) (pc : Nat) : List UInt16 := ((t.lines[pc]?).getD []).reverse

theorem linesAt_withLines (t : BodyTables) (lines : List (Nat × UInt16)) (pc : Nat) :
    (t.withLines lines).linesAt pc =
      t.linesAt pc ++ (lines.filter fun e => e.1 = pc).map Prod.snd := by
  induction lines generalizing t with
  | nil => simp [withLines]
  | cons e lines ih =>
    have first : (t.withLines [e]).linesAt pc =
        t.linesAt pc ++ if e.1 = pc then [e.2] else [] := by
      rw [linesAt, linesAt, withLines, List.foldl_cons, List.foldl_nil,
        Std.TreeMap.getElem?_alter]
      simp only [Std.LawfulEqCmp.compare_eq_iff_eq]
      split
      · rename_i same
        subst same
        simp
      · simp
    have rest : (t.withLines (e :: lines)).linesAt pc = _ := ih (t.withLines [e])
    rw [rest, first, List.append_assoc, List.filter_cons]
    by_cases same : e.1 = pc
    · simp [same]
    · simp [same]

end BodyTables

section Tables

variable {ctx : BodyContext} {length : Nat} {t : BodyTables} {data : Bytes}

theorem addTable_frames {frames : List (Nat × Frame)}
    (h : decodeFrames ctx length data = .ok frames) :
    addTable ctx length t ⟨"StackMapTable", data⟩ = .ok (t.withFrames frames) :=
  bind_ok_iff.2 ⟨frames, h, rfl⟩

theorem addTable_lines {lines : List (Nat × UInt16)}
    (h : (Reader.counted readLine).runOn data = .ok lines) (inside : ∀ e ∈ lines, e.1 < length) :
    addTable ctx length t ⟨"LineNumberTable", data⟩ = .ok (t.withLines lines) := by
  have all : (lines.filter fun e => e.1 < length) = lines :=
    List.filter_eq_self.2 fun e he => decide_eq_true (inside e he)
  refine bind_ok_iff.2 ⟨lines, h, ?_⟩
  rw [all]
  rfl

theorem addTable_locals {name : String} {locals : List LocalVariable} {generic : Bool}
    (kind : name = "LocalVariableTable" ∧ generic = false ∨
      name = "LocalVariableTypeTable" ∧ generic = true)
    (h : (Reader.counted (readLocal ctx.pool length generic)).runOn data =
      .ok (locals.map some)) :
    addTable ctx length t ⟨name, data⟩ = .ok (t.withLocals locals) := by
  have all : (locals.map some).filterMap id = locals := by
    rw [List.filterMap_map]
    exact List.filterMap_some
  rcases kind with ⟨rfl, rfl⟩ | ⟨rfl, rfl⟩
  all_goals
    refine bind_ok_iff.2 ⟨_, h, ?_⟩
    rw [all]
    rfl

theorem readsAt_readTables {chunks : List Bytes} {attributes : List Attribute}
    (h : AttributesRead ctx.pool chunks attributes) (fits : ∀ a ∈ attributes, a.Fits)
    {t' : BodyTables} (taken : attributes.foldlM (addTable ctx length) t = .ok t') {o : Nat} :
    ReadsAt o (readTables ctx length attributes.length t) chunks.flatten t' := by
  induction h generalizing t o with
  | nil =>
    cases taken
    exact .pure _
  | @cons bs a chunks attributes first _ ih =>
    obtain ⟨next, hnext, taken⟩ := bind_ok_iff.1 taken
    refine .bind (first.2 (fits a (List.mem_cons_self ..)) o) (.bind_nil (.lift hnext) ?_)
    exact ih (fun a ha => fits a (List.mem_cons_of_mem _ ha)) taken

theorem find?_marks_eq_none {decoded : List (Nat × Insn)}
    (h : ∀ n ∈ t.marks, n = length ∨ ∃ d ∈ decoded, d.1 = n) :
    (t.marks.toList.find? fun pc => pc != length && !(starts decoded).contains pc) = none := by
  rw [List.find?_eq_none]
  intro n hn
  rw [Std.TreeSet.mem_toList] at hn
  rcases h n hn with rfl | found
  · simp
  · have known := mem_starts.2 found
    simp [known]

theorem readsAt_readCode {maxStack maxLocals : UInt16} {bytes handlerBytes : Bytes}
    {decoded : List (Nat × Insn)} {handlers : List Handler} {chunks : List Bytes}
    {attributes : List Attribute} {t : BodyTables} (short : bytes.length < 65536)
    (hdecoded : InsnDecode.decode ctx.pool ctx.bootstraps bytes = .ok decoded)
    (hhandlers : ∀ o, ReadsAt o (Reader.counted (readHandler ctx.pool bytes.length)) handlerBytes
      handlers)
    (hattributes : AttributesRead ctx.pool chunks attributes) (fits : ∀ a ∈ attributes, a.Fits)
    (count : attributes.length < 65536)
    (taken : attributes.foldlM (addTable ctx bytes.length)
      ⟨startMarks decoded handlers, ∅, [], []⟩ = .ok t)
    (boundary : ∀ n ∈ t.marks, n = bytes.length ∨ ∃ d ∈ decoded, d.1 = n) :
    ReadsAt 0 (readCode ctx)
      (Bytes.be 2 maxStack.toNat ++ Bytes.be 2 maxLocals.toNat ++ Bytes.be 4 bytes.length ++
        bytes ++ handlerBytes ++ (Bytes.be 2 attributes.length ++ chunks.flatten))
      (assembled maxStack maxLocals decoded handlers t bytes.length) := by
  have long : bytes.length < 4294967296 := by omega
  simp only [List.append_assoc]
  refine .bind (.u16_toNat maxStack) (.bind (.u16_toNat maxLocals) (.bind (.u32 _ long) ?_))
  rw [UInt32.toNat_ofNat_of_lt' long]
  refine .bind (.take bytes) (.bind_nil (.lift hdecoded) (.bind (hhandlers _) ?_))
  refine .bind (.u16 _ count) ?_
  rw [UInt16.toNat_ofNat_of_lt' count]
  refine .bind_last (readsAt_readTables hattributes fits taken) ?_
  have checked := find?_marks_eq_none boundary
  rw [starts] at checked
  dsimp only
  rw [checked]
  exact .pure _

end Tables

end ClassFile

end ClassWeave
