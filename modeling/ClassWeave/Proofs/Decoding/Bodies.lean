import Mathlib.Data.List.Forall2
import Mathlib.Tactic.Common
import ClassWeave.Proofs.Body.Parts
import ClassWeave.Proofs.Body.Marks
import ClassWeave.Proofs.Decoding.Frames
import ClassWeave.Proofs.Decoding.Insns

/-!
# Decoded bodies

A body that was read is put together from its parts: instructions in order, exception ranges and
local variables inside the code array, frames in order. Every place that one of them names holds a
label, and every label stands in front of an instruction or at the end.
-/

set_option autoImplicit false

namespace ClassWeave

structure Handler.Sane (limits : Limits) (length : Nat) (h : Handler) : Prop where
  range : ∃ start finish, start < finish ∧ finish ≤ length ∧ h.start = Label.ofNat start ∧
    h.finish = Label.ofNat finish
  target : ∃ target < length, h.target = Label.ofNat target
  catchType : ∀ name, h.catchType = some name → limits.text name

structure LocalVariable.Sane (limits : Limits) (length : Nat) (v : LocalVariable) : Prop where
  range : ∃ start finish, start ≤ finish ∧ finish ≤ length ∧ v.start = Label.ofNat start ∧
    v.finish = Label.ofNat finish
  texts : limits.text v.name ∧ limits.text v.desc

namespace ClassFile

variable {limits : Limits} {ctx : BodyContext} {length : Nat}

theorem yields_readHandler (hp : ctx.pool.WellFormed limits) :
    Yields (readHandler ctx.pool length) (Handler.Sane limits length) := by
  refine .bind (.trivial _) fun start _ => .bind (.trivial _) fun finish _ => ?_
  refine .bind (.trivial _) fun target _ => .bind (.trivial _) fun i _ => ?_
  refine .ite (fun _ => .bind .throw fun _ (h : False) => h.elim) fun inside => ?_
  have sane : ∀ caught : Option String, (∀ name, caught = some name → limits.text name) →
      Handler.Sane limits length ⟨Label.ofNat start.toNat, Label.ofNat finish.toNat,
        Label.ofNat target.toNat, caught⟩ := fun caught texts =>
    ⟨⟨_, _, by omega, by omega, rfl, rfl⟩, ⟨_, by omega, rfl⟩, texts⟩
  refine .ite (fun _ => .bind (P := fun caught => ∀ name, caught = some name → limits.text name)
    (.pure (by nofun)) fun caught h => .pure (sane caught h)) fun _ => ?_
  refine .bind (P := fun caught => ∀ name, caught = some name → limits.text name)
    (.map (.lift fun name h => Pool.text_of_className hp h) fun name hn => ?_) fun caught h =>
      .pure (sane caught h)
  intro name' same
  cases same
  exact hn

theorem yields_readLocal (hp : ctx.pool.WellFormed limits) (generic : Bool) :
    Yields (readLocal ctx.pool length generic) fun v =>
      ∀ w, v = some w → w.Sane limits length := by
  have text : Yields (readUtf8 ctx.pool) limits.text :=
    .bind (.trivial _) fun _ _ => .lift fun _ h => Pool.text_of_utf8 hp h
  refine .bind (.trivial _) fun start _ => .bind (.trivial _) fun span _ => ?_
  refine .bind text fun name hn => .bind text fun desc hd => .bind (.trivial _) fun slot _ => ?_
  refine .ite (fun _ => .pure nofun) fun inside => .pure fun w same => ?_
  cases same
  exact ⟨⟨_, _, Nat.le_add_right .., by omega, rfl, rfl⟩, hn, hd⟩

structure TablesSane (limits : Limits) (ctx : BodyContext) (length : Nat) (t : BodyTables) :
    Prop where
  ascending : t.frames.Pairwise (·.1 < ·.1)
  inside : ∀ g ∈ t.frames, g.1 < length
  reachable : ∀ d, MethodDescriptor.parse ctx.desc = .ok d →
    StackMap.Reachable (entryLocals ctx.owner ctx.access ctx.name d) t.frames
  frames : ∀ g ∈ t.frames, g.2.Sane limits
  frameMarks : ∀ g ∈ t.frames, ∀ n, BodyTables.frameMarks g n → n ∈ t.marks
  locals : ∀ v ∈ t.locals, v.Sane limits length
  localMarks : ∀ v ∈ t.locals, v.start.number.toNat ∈ t.marks ∧ v.finish.number.toNat ∈ t.marks

def EntrySane (limits : Limits) (ctx : BodyContext) : Prop :=
  ∀ d, MethodDescriptor.parse ctx.desc = .ok d →
    ∀ t ∈ entryLocals ctx.owner ctx.access ctx.name d, t.Sane limits

theorem sequence_decodeFrames (hp : ctx.pool.WellFormed limits) (entry : EntrySane limits ctx)
    {body : Bytes} {frames : List (Nat × Frame)} (h : decodeFrames ctx length body = .ok frames) :
    frames.Pairwise (·.1 < ·.1) ∧ (∀ g ∈ frames, g.1 < length) ∧
      (∀ d, MethodDescriptor.parse ctx.desc = .ok d →
        StackMap.Reachable (entryLocals ctx.owner ctx.access ctx.name d) frames) ∧
      ∀ g ∈ frames, g.2.Sane limits := by
  obtain ⟨d, hd, h⟩ := bind_ok_iff.1 h
  obtain ⟨found, hf, h⟩ := bind_ok_iff.1 h
  split at h
  · cases h
  · rename_i all
    cases h
    have seq := StackMap.sequence_decode hp hf
    refine ⟨seq.ascending, fun g hg => ?_, fun d' hd' => ?_, seq.sane (entry d hd)⟩
    · have := List.find?_eq_none.1 all g hg
      simpa using this
    · rw [hd] at hd'
      cases hd'
      exact seq.reachable

theorem tablesSane_withFrames {t : BodyTables} (ht : TablesSane limits ctx length t)
    {frames : List (Nat × Frame)} (ascending : frames.Pairwise (·.1 < ·.1))
    (inside : ∀ g ∈ frames, g.1 < length)
    (reachable : ∀ d, MethodDescriptor.parse ctx.desc = .ok d →
      StackMap.Reachable (entryLocals ctx.owner ctx.access ctx.name d) frames)
    (sane : ∀ g ∈ frames, g.2.Sane limits) :
    TablesSane limits ctx length (t.withFrames frames) where
  ascending := ascending
  inside := inside
  reachable := reachable
  frames := sane
  frameMarks g hg _ hn := BodyTables.mem_withFrames.2 (.inr ⟨g, hg, hn⟩)
  locals := ht.locals
  localMarks v hv := (ht.localMarks v hv).imp (fun h => BodyTables.mem_withFrames.2 (.inl h))
    fun h => BodyTables.mem_withFrames.2 (.inl h)

theorem tablesSane_withLocals {t : BodyTables} (ht : TablesSane limits ctx length t)
    {locals : List LocalVariable} (sane : ∀ v ∈ locals, v.Sane limits length) :
    TablesSane limits ctx length (t.withLocals locals) where
  ascending := ht.ascending
  inside := ht.inside
  reachable := ht.reachable
  frames := ht.frames
  frameMarks g hg _ hn := BodyTables.mem_withLocals.2 (.inl (ht.frameMarks g hg _ hn))
  locals v hv := by
    rcases List.mem_append.1 hv with hv | hv
    · exact ht.locals v hv
    · exact sane v hv
  localMarks v hv := by
    rcases List.mem_append.1 hv with hv | hv
    · exact (ht.localMarks v hv).imp (fun h => BodyTables.mem_withLocals.2 (.inl h))
        fun h => BodyTables.mem_withLocals.2 (.inl h)
    · have named : ∀ x ∈ [v.start, v.finish], x.number.toNat ∈ (t.withLocals locals).marks :=
        fun x hx => BodyTables.mem_withLocals.2
          (.inr ⟨x, List.mem_flatMap.2 ⟨v, hv, hx⟩, rfl⟩)
      exact ⟨named _ (by simp), named _ (by simp)⟩

theorem tablesSane_addTable (hp : ctx.pool.WellFormed limits) (entry : EntrySane limits ctx)
    {t t' : BodyTables} {a : Attribute} (ht : TablesSane limits ctx length t)
    (h : addTable ctx length t a = .ok t') :
    TablesSane limits ctx length t' ∧ ∀ n ∈ t.marks, n ∈ t'.marks := by
  have locals : ∀ generic, ((Reader.counted (readLocal ctx.pool length generic)).runOn a.data >>=
      fun entries => .ok (t.withLocals (entries.filterMap id))) = .ok t' →
      TablesSane limits ctx length t' ∧ ∀ n ∈ t.marks, n ∈ t'.marks := by
    intro generic h
    obtain ⟨entries, he, h⟩ := bind_ok_iff.1 h
    cases h
    have each := Yields.runOn (.counted (yields_readLocal hp generic)) he
    refine ⟨tablesSane_withLocals ht fun v hv => ?_, fun n hn =>
      BodyTables.mem_withLocals.2 (.inl hn)⟩
    obtain ⟨w, hw, same⟩ := List.mem_filterMap.1 hv
    exact each.2 w hw v same
  unfold addTable at h
  split at h
  · obtain ⟨frames, hf, h⟩ := bind_ok_iff.1 h
    cases h
    obtain ⟨ascending, inside, reachable, sane⟩ := sequence_decodeFrames hp entry hf
    exact ⟨tablesSane_withFrames ht ascending inside reachable sane, fun n hn =>
      BodyTables.mem_withFrames.2 (.inl hn)⟩
  · obtain ⟨entries, _, h⟩ := bind_ok_iff.1 h
    cases h
    exact ⟨⟨ht.ascending, ht.inside, ht.reachable, ht.frames, ht.frameMarks, ht.locals,
      ht.localMarks⟩, fun n hn => hn⟩
  · exact locals _ h
  · exact locals _ h
  · cases h
    exact ⟨ht, fun n hn => hn⟩

theorem yields_readTables (hp : ctx.pool.WellFormed limits) (entry : EntrySane limits ctx)
    (count : Nat) {t : BodyTables} (ht : TablesSane limits ctx length t) :
    Yields (readTables ctx length count t) fun t' =>
      TablesSane limits ctx length t' ∧ ∀ n ∈ t.marks, n ∈ t'.marks := by
  induction count generalizing t with
  | zero => exact .pure ⟨ht, fun n hn => hn⟩
  | succ count ih =>
    refine .bind (.trivial _) fun a _ => ?_
    refine .bind (.lift fun next h => tablesSane_addTable hp entry ht h) fun next hnext => ?_
    exact (ih hnext.1).mono fun t' h => ⟨h.1, fun n hn => h.2 n (hnext.2 n hn)⟩

structure BodyParts where
  maxStack : UInt16
  maxLocals : UInt16
  length : Nat
  decoded : List (Nat × Insn)
  handlers : List Handler
  tables : BodyTables

namespace BodyParts

def code (b : BodyParts) : Code :=
  assembled b.maxStack b.maxLocals b.decoded b.handlers b.tables b.length

structure Sane (limits : Limits) (ctx : BodyContext) (b : BodyParts) : Prop where
  short : b.length < 4294967296
  decoded : InsnDecode.Ordered ⟨ctx.pool, ctx.bootstraps, b.length⟩ limits b.decoded
  handlerCount : b.handlers.length < 65536
  handlers : ∀ h ∈ b.handlers, h.Sane limits b.length
  tables : TablesSane limits ctx b.length b.tables
  started : ∀ n ∈ startMarks b.decoded b.handlers, n ∈ b.tables.marks
  boundary : ∀ n ∈ b.tables.marks, n = b.length ∨ ∃ d ∈ b.decoded, d.1 = n

end BodyParts

theorem yields_readCode (hp : ctx.pool.WellFormed limits) (ht : ctx.bootstraps.WellFormed limits)
    (entry : EntrySane limits ctx) :
    Yields (readCode ctx) fun c => ∃ b : BodyParts, b.Sane limits ctx ∧ c = b.code := by
  refine .bind (.trivial _) fun maxStack _ => .bind (.trivial _) fun maxLocals _ => ?_
  refine .bind (.trivial _) fun length _ => .bind (.take _) fun bytes hb => ?_
  refine .bind (.lift fun decoded h => InsnDecode.ordered_decode hp ht h) fun decoded hd => ?_
  rw [hb] at hd
  refine .bind (.counted (yields_readHandler hp)) fun handlers hh =>
    .bind (.trivial _) fun count _ => ?_
  have start : TablesSane limits ctx length.toNat ⟨startMarks decoded handlers, ∅, [], []⟩ :=
    ⟨.nil, nofun, fun _ _ => True.intro, nofun, nofun, nofun, nofun⟩
  refine .bind (yields_readTables hp entry count.toNat start) fun t htables => ?_
  dsimp only
  split
  · exact .throw
  · rename_i all
    refine .pure ⟨⟨maxStack, maxLocals, length.toNat, decoded, handlers, t⟩, ⟨length.toNat_lt, hd,
      hh.1, hh.2, htables.1, htables.2, fun n hn => ?_⟩, rfl⟩
    have found := List.find?_eq_none.1 all n (Std.TreeSet.mem_toList.2 hn)
    have known : n = length.toNat ∨ n ∈ starts decoded := by
      by_cases last : n = length.toNat
      · exact .inl last
      · right
        simpa [last, starts] using found
    exact known.imp_right mem_starts.1

end ClassFile

end ClassWeave
