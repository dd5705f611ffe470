import Mathlib.Data.List.Forall2
import Mathlib.Tactic.Common
import ClassWeave.Proofs.Binding
import ClassWeave.Proofs.Body.Again

/-!
# Every instruction fills its place

What the layout counts for an instruction is what the writer puts out for it, so the bytes of each
start where the layout placed it, and a label stands where the next executed instruction starts.
The writer adds constants to the tables on its way; the index of a loaded constant was fixed before
and is still the one that the tables answer with when its turn comes.
-/

set_option autoImplicit false

namespace ClassWeave

namespace Layout

variable {l : Layout} {pc start finish : Nat}

section Widths

variable {x : Label} {bytes : Bytes}

theorem length_offset16 (h : l.offset16 pc x = .ok bytes) : bytes.length = 2 := by
  obtain ⟨d, _, h⟩ := bind_ok_iff.1 h
  split at h
  · cases h
    exact Bytes.length_be ..
  · cases h

theorem length_offset32 (h : l.offset32 pc x = .ok bytes) : bytes.length = 4 := by
  obtain ⟨d, _, h⟩ := bind_ok_iff.1 h
  cases h
  exact Bytes.length_be ..

theorem length_emitPair {pair : Int32 × Label} (h : l.emitPair pc pair = .ok bytes) :
    bytes.length = 8 := by
  obtain ⟨there, offset, h⟩ := bind_ok_iff.1 h
  cases h
  rw [List.length_append, Bytes.length_be, length_offset32 offset]

theorem length_flatten_mapM {α : Type} {f : α → Except WriteError Bytes} {width : Nat}
    (each : ∀ a bytes, f a = .ok bytes → bytes.length = width) {as : List α} {cells : List Bytes}
    (h : as.mapM f = .ok cells) : cells.flatten.length = width * as.length := by
  have pairs := mapM_ok_iff.1 h
  rw [pairs.length_eq]
  refine length_flatten_of_forall fun cell mem => ?_
  obtain ⟨a, _, written⟩ := exists_left_of_forall₂ pairs mem
  exact each a cell written

end Widths

theorem answers_emitInsn (l : Layout) (p : Placed) :
    Answers (l.emitInsn p) fun bytes => bytes.length = p.size := by
  obtain ⟨pc, insn, index⟩ := p
  cases insn with
  | label x | line n | simple op => exact .pure rfl
  | intOp op v =>
    refine .pure ?_
    dsimp only [Placed.size, Insn.size]
    split <;> rfl
  | var op slot => exact .pure (InsnDecode.length_emitVar op slot pc index)
  | iinc slot delta => exact .pure (InsnDecode.length_emitIinc slot delta pc index)
  | typeOp op name | field op m => exact .bind .trivial fun i _ => .pure rfl
  | callSite name desc b => exact .bind .trivial fun i _ => .pure rfl
  | newArrays name dims => exact .bind .trivial fun i _ => .pure rfl
  | method op m ofInterface =>
    refine .bind .trivial fun i _ => ?_
    dsimp only [Placed.size, Insn.size]
    split
    · exact .bind .trivial fun d _ => .pure rfl
    · exact .pure rfl
  | ldc v =>
    cases index with
    | none => exact .throw _
    | some i => exact .pure (InsnDecode.length_emitLdc v i pc)
  | jump op x =>
    dsimp only [emitInsn, Placed.size, Insn.size]
    split
    · exact .bind (.lift fun bytes h => length_offset32 h) fun bytes four =>
        .pure (by rw [List.length_cons, four])
    · exact .bind (.lift fun bytes h => length_offset16 h) fun bytes two =>
        .pure (by rw [List.length_cons, two])
  | tableSwitch fallback low high targets =>
    refine .bind (.lift fun bytes h => length_offset32 h) fun first four => ?_
    refine .bind (.lift fun cells h => length_flatten_mapM (fun _ _ => length_offset32) h)
      fun cells room => .pure ?_
    simp [Placed.size, Insn.size, four, room]
    omega
  | lookupSwitch fallback pairs =>
    refine .bind (.lift fun bytes h => length_offset32 h) fun first four => ?_
    refine .bind (.lift fun cells h => length_flatten_mapM (fun _ _ => length_emitPair) h)
      fun cells room => .pure ?_
    rw [(sortOn_perm _ pairs).length_eq] at room
    simp [Placed.size, Insn.size, four, room]
    omega

/-- Where the next executed instruction starts, or `finish` if there is none. -/
def nextOffset (finish : Nat) (ps : List Placed) : Nat :=
  ((ps.find? (·.insn.isExecuted)).map Placed.offset).getD finish

theorem Chain.nextOffset_eq {ps : List Placed} (chain : Chain start ps finish) :
    nextOffset finish ps = start := by
  induction ps generalizing start with
  | nil => exact chain
  | cons p ps ih =>
    obtain ⟨here, rest⟩ := chain
    by_cases executed : p.insn.isExecuted = true
    · rw [nextOffset, List.find?_cons_of_pos (p := fun q : Placed => q.insn.isExecuted) executed]
      exact here
    · rw [Placed.size_mark executed] at rest
      rw [nextOffset,
        List.find?_cons_of_neg (p := fun q : Placed => q.insn.isExecuted) executed]
      exact ih rest

theorem mapM_split {σ α β : Type} {k : α → GrowthOf σ β} {before after : List α} {a : α} {s u : σ}
    {bs : List β} (run : (before ++ a :: after).mapM k s = (.ok bs, u)) :
    ∃ first b last t t', before.mapM k s = (.ok first, t) ∧ k a t = (.ok b, t') ∧
      after.mapM k t' = (.ok last, u) ∧ bs = first ++ b :: last := by
  rw [List.mapM_append] at run
  obtain ⟨first, t, front, run⟩ := bind_run_ok run
  obtain ⟨rest, t', back, run⟩ := bind_run_ok run
  cases run
  rw [List.mapM_cons] at back
  obtain ⟨b, t₁, here, back⟩ := bind_run_ok back
  obtain ⟨last, t₂, behind, back⟩ := bind_run_ok back
  cases back
  exact ⟨first, b, last, t, t₁, front, here, behind, rfl⟩

variable {insns : List Insn} {before after : List Placed} {p : Placed} {x : Label}

theorem Laid.find?_of_last (h : Laid insns l) (split : l.placed = before ++ p :: after)
    (mark : p.insn = .label x) (last : ∀ q ∈ after, q.insn ≠ .label x) :
    l.positions.find? x = some (nextOffset l.length after) := by
  have chain := h.chain
  rw [split, chain_append] at chain
  obtain ⟨_, _, here, rest⟩ := chain
  rw [Placed.size_mark (by simp [mark, Insn.isExecuted])] at rest
  rw [rest.nextOffset_eq, ← here, h.positions, split, List.foldl_append, List.foldl_cons]
  have bound (known : Positions) : (p.mark known).find? x = some p.offset := by
    rw [Placed.mark, mark, Positions.find?_bind, if_pos rfl]
  have known := bound (before.foldl Placed.mark Positions.empty)
  obtain ⟨n, found⟩ := @find?_marks_of_mem after _ x (.inl ⟨_, known⟩)
  rcases mem_of_find?_marks found with same | ⟨q, mem, again, _⟩
  · rw [found, ← same, bound]
    rfl
  · exact absurd again (last q mem)

theorem Laid.find?_eq_some_iff (h : Laid insns l) (once : (boundLabels insns).Nodup) {n : Nat} :
    l.positions.find? x = some n ↔ ∃ before p after, l.placed = before ++ p :: after ∧
      p.insn = .label x ∧ n = nextOffset l.length after := by
  have last {before after : List Placed} {p : Placed} (split : l.placed = before ++ p :: after)
      (mark : p.insn = .label x) : ∀ q ∈ after, q.insn ≠ .label x := by
    intro q mem again
    rw [← h.insns, split, List.map_append, List.map_cons, mark, boundLabels_append,
      boundLabels_cons] at once
    have rest := (List.nodup_append.1 once).2.1
    refine (List.nodup_cons.1 rest).1 (mem_boundLabels.2 ?_)
    exact again ▸ List.mem_map_of_mem mem
  constructor
  · intro found
    obtain ⟨p, mem, mark, _⟩ := h.mem_of_find? found
    obtain ⟨before, after, split⟩ := List.append_of_mem mem
    refine ⟨before, p, after, split, mark, Option.some.inj ?_⟩
    rw [← found, h.find?_of_last split mark (last split mark)]
  · rintro ⟨before, p, after, split, mark, rfl⟩
    exact h.find?_of_last split mark (last split mark)

/-- The writer at `p`, on its way from the tables `t` to the tables `u`: the bytes in front are
out, as many as the offset says, those of the instruction are as many as its size, and the rest
follows. A loaded constant is written with the index from the layout, and with tables that were
well formed to begin with, asking for it anew at this point would bring no other index and add
nothing. -/
def Fills (l : Layout) (s t u : Tables) (bytes : Bytes) (before : List Placed) (p : Placed)
    (after : List Placed) : Prop :=
  ∃ front chunk back t₁ t₂, before.mapM l.emitInsn t = (.ok front, t₁) ∧
    l.emitInsn p t₁ = (.ok chunk, t₂) ∧ after.mapM l.emitInsn t₂ = (.ok back, u) ∧
    bytes = front.flatten ++ chunk ++ back.flatten ∧ front.flatten.length = p.offset ∧
    chunk.length = p.insn.size p.offset p.index ∧
    ∀ v, p.insn = .ldc v → ∃ i, p.index = some i ∧ chunk = emitLdc v i ∧
      (s.WellFormed Limits.none → Tables.internLoadable v t₁ = (.ok i, t₁))

theorem form_of_emitInsn {v : Loadable} (load : p.insn = .ldc v) {t u : Tables} {chunk : Bytes}
    (run : l.emitInsn p t = (.ok chunk, u)) : ∃ i, p.index = some i ∧ chunk = emitLdc v i := by
  obtain ⟨pc, insn, index⟩ := p
  cases load
  cases index with
  | none => cases run
  | some i =>
    cases run
    exact ⟨i, rfl, rfl⟩

theorem Laid.fills (h : Laid insns l) {s t u : Tables} {bytes : Bytes}
    (laidOut : ofInsns insns s = (.ok l, t)) (written : l.emit t = (.ok bytes, u))
    (split : l.placed = before ++ p :: after) : l.Fills s t u bytes before p after := by
  obtain ⟨chunks, u, run, done⟩ := bind_run_ok written
  cases done
  rw [split] at run
  obtain ⟨front, chunk, back, t₁, t₂, first, here, last, rfl⟩ := mapM_split run
  have chain := h.chain
  rw [split, chain_append] at chain
  obtain ⟨middle, chain, offset, _⟩ := chain
  have sized := Answers.mapM (fun q (_ : q ∈ before) => answers_emitInsn l q) t front t₁ first
  refine ⟨front, chunk, back, t₁, t₂, first, here, last, ?_, ?_,
    answers_emitInsn l p t₁ chunk t₂ here, fun v load => ?_⟩
  · rw [List.flatten_append, List.flatten_cons, List.append_assoc]
  · rw [offset, ← chain.length_flatten sized, Nat.zero_add]
  · obtain ⟨i, index, form⟩ := form_of_emitInsn load here
    refine ⟨i, index, form, fun known => ?_⟩
    obtain ⟨ht, _, stored⟩ := grows_known insns s _ t known laidOut
    obtain ⟨_, grown, _⟩ := Repeats.mapM (Repeats.emitInsn l) before t _ t₁ ht first
    have mem : p ∈ l.placed := split ▸ List.mem_append_right before (List.mem_cons_self ..)
    obtain ⟨j, same, asked⟩ := (stored l rfl t₁ grown p mem).1 v load
    rw [index] at same
    cases same
    exact asked

/-- Layout and writer agree: the instructions stand in order, each fills the place that it was
given, all of them together the length that was counted, and a label stands where the next executed
instruction starts, or at the end. -/
theorem extents_emit {s t u : Tables} {bytes : Bytes} (once : (boundLabels insns).Nodup)
    (laidOut : ofInsns insns s = (.ok l, t)) (written : l.emit t = (.ok bytes, u)) :
    l.placed.map Placed.insn = insns ∧ bytes.length = l.length ∧
    (∀ before p after, l.placed = before ++ p :: after → l.Fills s t u bytes before p after) ∧
    ∀ x n, l.positions.find? x = some n ↔ ∃ before p after, l.placed = before ++ p :: after ∧
      p.insn = .label x ∧ n = nextOffset l.length after := by
  have laid := answers_ofInsns insns s l t laidOut
  refine ⟨laid.insns, ?_, fun before p after split => laid.fills laidOut written split,
    fun x n => laid.find?_eq_some_iff once⟩
  obtain ⟨chunks, u, run, done⟩ := bind_run_ok written
  cases done
  have sized := Answers.mapM (fun q (_ : q ∈ l.placed) => answers_emitInsn l q) t chunks u run
  rw [← laid.chain.length_flatten sized, Nat.zero_add]

/-- Two constants of different widths around a padded switch, a field whose reference is interned
between them and their writing, and a label at the end. -/
def loadingSwitch : List Insn :=
  [.field Opcode.getstatic ⟨"A", "f", "J"⟩, .ldc (.long 7), .label ⟨1⟩, .line 3,
    .tableSwitch ⟨2⟩ 0 1 [⟨1⟩, ⟨2⟩], .ldc (.string "a"), .simple Opcode.returnVoid, .label ⟨2⟩]

theorem extents_loadingSwitch : ∃ l t bytes u,
    Tables.WellFormed Limits.none ⟨Pool.empty, BootstrapTable.empty⟩ ∧
    (boundLabels loadingSwitch).Nodup ∧
    ofInsns loadingSwitch ⟨Pool.empty, BootstrapTable.empty⟩ = (.ok l, t) ∧
    l.emit t = (.ok bytes, u) ∧ t.pool.size = 5 ∧ u.pool.size = 11 ∧ bytes.length = 31 ∧
    l.placed.map Placed.offset = [0, 3, 6, 6, 6, 28, 30, 31] ∧
    l.positions.find? ⟨1⟩ = some 6 ∧ l.positions.find? ⟨2⟩ = some 31 ∧
    ∀ before p after, l.placed = before ++ p :: after →
      l.Fills ⟨Pool.empty, BootstrapTable.empty⟩ t u bytes before p after := by
  have computed : (match ofInsns loadingSwitch ⟨Pool.empty, BootstrapTable.empty⟩ with
      | (.error _, _) => false
      | (.ok l, t) => (l.emit t).1.isOk = true ∧ t.pool.size = 5 ∧ (l.emit t).2.pool.size = 11 ∧
        l.length = 31 ∧ l.placed.map Placed.offset = [0, 3, 6, 6, 6, 28, 30, 31] ∧
        l.positions.find? ⟨1⟩ = some 6 ∧ l.positions.find? ⟨2⟩ = some 31 : Bool) = true := by
    decide +kernel
  split at computed
  · cases computed
  rename_i l t laidOut
  obtain ⟨written, before, behind, length, offsets, one, two⟩ := of_decide_eq_true computed
  have once : (boundLabels loadingSwitch).Nodup := by decide
  rcases run : l.emit t with ⟨e | bytes, u⟩
  · rw [run] at written
    cases written
  · rw [run] at behind
    obtain ⟨_, room, fills, _⟩ := extents_emit once laidOut run
    exact ⟨l, t, bytes, u, ⟨Pool.wellFormed_empty, Nat.zero_le _, nofun⟩, once, laidOut, run,
      before, behind, room.trans length, offsets, one, two, fills⟩

end Layout

end ClassWeave
