import Mathlib.Data.List.Nodup
import Mathlib.Tactic.Common
import ClassWeave.Proofs.Binding
import ClassWeave.Proofs.Body.Moved
import ClassWeave.Proofs.Decoding.Classes

/-!
# Labels of decoded bodies

A reader names labels by their offsets and binds each offset that something names, once. Its next
label lies behind the end of the code, which is far from the last number that a label may have.
-/

set_option autoImplicit false

namespace ClassWeave

namespace Reader

variable {α β : Type}

/-- The reader passes over at least `n` bytes of what it accepts. -/
def Passes (n : Nat) (r : Reader α) : Prop :=
  ∀ c a c', r c = .ok (a, c') → n + c'.rest.length ≤ c.rest.length

theorem passes_take (n : Nat) : Passes n (take n) := by
  intro c bytes c' run
  simp only [take] at run
  split at run
  · rename_i whole
    cases run
    rw [List.length_take] at whole
    show n + (c.rest.drop n).length ≤ _
    rw [List.length_drop]
    omega
  · cases run

theorem Passes.bind_pure {n : Nat} {r : Reader α} {f : α → β} (h : Passes n r) :
    Passes n (r >>= fun a => pure (f a)) := by
  intro c b c' run
  obtain ⟨⟨a, c₁⟩, first, run⟩ := bind_ok_iff.1 run
  cases run
  exact h c a _ first

theorem passes_u16 : Passes 2 u16 := (passes_take 2).bind_pure.bind_pure

theorem passes_u32 : Passes 4 u32 := (passes_take 4).bind_pure.bind_pure

end Reader

theorem Label.ofNat_toNat (l : Label) : Label.ofNat l.number.toNat = l := by
  rw [ofNat, UInt32.ofNat_toNat]

namespace ClassFile

variable {ctx : BodyContext}

theorem nextLabel_readCode {data : Bytes} {code : Code}
    (read : (readCode ctx).runOn data = .ok code) :
    ∃ n, n + 8 ≤ data.length ∧ code.nextLabel = UInt32.ofNat n + 1 := by
  obtain ⟨⟨_, c⟩, run, same⟩ := bind_ok_iff.1 (show (readCode ctx (Cursor.start data) >>=
    fun p => Except.ok p.1) = .ok code from read)
  cases same
  obtain ⟨⟨maxStack, c₁⟩, first, run⟩ := bind_ok_iff.1 run
  obtain ⟨⟨maxLocals, c₂⟩, second, run⟩ := bind_ok_iff.1 run
  obtain ⟨⟨length, c₃⟩, third, run⟩ := bind_ok_iff.1 run
  obtain ⟨⟨bytes, c₄⟩, fourth, run⟩ := bind_ok_iff.1 run
  have passed := Reader.passes_u16 _ _ _ first
  have passed' := Reader.passes_u16 _ _ _ second
  have passed'' := Reader.passes_u32 _ _ _ third
  have passed''' := Reader.passes_take _ _ _ _ fourth
  have start : (Cursor.start data).rest.length = data.length := rfl
  refine ⟨length.toNat, by omega, ?_⟩
  obtain ⟨⟨decoded, c₅⟩, _, run⟩ := bind_ok_iff.1 run
  obtain ⟨⟨handlers, c₆⟩, _, run⟩ := bind_ok_iff.1 run
  obtain ⟨⟨count, c₇⟩, _, run⟩ := bind_ok_iff.1 run
  obtain ⟨⟨t, c₈⟩, _, run⟩ := bind_ok_iff.1 run
  dsimp only at run
  generalize List.find? _ _ = outside at run
  cases outside with
  | some pc => cases run
  | none =>
    cases run
    rfl

theorem readCode_of_parse {bytes : Bytes} {c : ClassFile} (parsed : parse bytes = .ok c)
    {m : Method} (mem : m ∈ c.methods) {code : Code} (body : m.code = some code) :
    ∃ ctx data, data.length < 4294967296 ∧ (readCode ctx).runOn data = .ok code := by
  have bodies : Yields read fun c => ∀ m ∈ c.methods, ∀ code, m.code = some code →
      ∃ ctx data, data.length < 4294967296 ∧ (readCode ctx).runOn data = .ok code := by
    refine .bind yields_readOpening fun opening known => ?_
    obtain ⟨minor, major, pool⟩ := opening
    refine .bind (.trivial _) fun r _ => .bind (.trivial _) fun fields _ => ?_
    refine .bind (.counted (yields_readMethod known)) fun stored sane => ?_
    refine .bind (.trivial _) fun attributes _ => .bind (.trivial _) fun left _ => ?_
    refine .ite (fun _ => .bind .throw fun _ (h : False) => h.elim) fun _ => ?_
    refine .bind (.trivial _) fun t _ => .bind (.mapM_lift _ _) fun methods decoded => .pure ?_
    intro m mem code body
    obtain ⟨s, sMem, decoded⟩ := exists_left_of_forall₂ decoded mem
    obtain ⟨body', rfl, found⟩ := decodeMethod_cases decoded
    obtain ⟨a, aMem, _, run⟩ := found code body
    exact ⟨_, a.data, ((sane.2 s sMem).attributes a aMem).2, run⟩
  exact bodies.runOn parsed m mem code body

theorem boundLabels_withMarks {decoded : List (Nat × Insn)} (t : BodyTables) (length : Nat)
    (executed : ∀ d ∈ decoded, d.2.isExecuted = true) :
    boundLabels (withMarks decoded t length) =
      ((decoded.map Prod.fst ++ [length]).filter (t.marks.contains ·)).map Label.ofNat := by
  have lines : ∀ pc, boundLabels ((t.linesAt pc).map Insn.line) = [] := fun pc =>
    List.filterMap_eq_nil_iff.2 fun i mem => by
      obtain ⟨n, _, rfl⟩ := List.mem_map.1 mem
      rfl
  have front : ∀ pc, boundLabels (marksAt t pc) =
      ([pc].filter (t.marks.contains ·)).map Label.ofNat := by
    intro pc
    rw [marksAt, boundLabels_append, lines, List.append_nil, List.filter_singleton]
    cases t.marks.contains pc <;> rfl
  have last : boundLabels (lastMark t length) =
      ([length].filter (t.marks.contains ·)).map Label.ofNat := by
    rw [lastMark, List.filter_singleton]
    cases t.marks.contains length <;> rfl
  rw [withMarks_eq, boundLabels_append, last, List.filter_append, List.map_append]
  congr 1
  induction decoded with
  | nil => rfl
  | cons d rest ih =>
    have none := bound?_of_executed (executed d (List.mem_cons_self ..))
    rw [List.flatMap_cons, boundLabels_append, boundLabels_append, boundLabels_cons, none, front,
      ih fun e mem => executed e (List.mem_cons_of_mem d mem), List.map_cons, Option.toList_none,
      boundLabels_nil, List.append_nil, List.append_nil, ← List.map_append, ← List.filter_append]
    rfl

namespace BodyParts.Sane

variable {limits : Limits} {b : BodyParts}

theorem binds_of_mark (h : b.Sane limits ctx) {n : Nat} (marked : n ∈ b.tables.marks) :
    b.code.Binds (Label.ofNat n) := by
  show Insn.label _ ∈ withMarks ..
  rw [withMarks_eq, List.mem_append, List.mem_flatMap]
  rcases h.boundary n marked with rfl | ⟨d, mem, rfl⟩
  · exact .inr (label_mem_lastMark.2 ⟨marked, rfl⟩)
  · exact .inl ⟨d, mem, List.mem_append_left _ (label_mem_marksAt.2 ⟨marked, rfl⟩)⟩

theorem binds (h : b.Sane limits ctx) {l : Label} (marked : l.number.toNat ∈ b.tables.marks) :
    b.code.Binds l := Label.ofNat_toNat l ▸ h.binds_of_mark marked

theorem closed (h : b.Sane limits ctx) : b.code.Closed where
  targets i mem l named := by
    have split : i ∈ withMarks b.decoded b.tables b.length := mem
    rw [withMarks_eq, List.mem_append, List.mem_flatMap] at split
    have marks : ∀ j : Insn, ¬ j.isExecuted = true → l ∉ j.targets := by
      intro j mark
      cases j with
      | label x | line n => exact List.not_mem_nil
      | _ => exact absurd rfl mark
    rcases split with ⟨d, found, inside⟩ | last
    · rcases List.mem_append.1 inside with mark | here
      · exact absurd named (marks i (marksAt_flat mark))
      · cases List.mem_singleton.1 here
        refine h.binds (h.started _ (mem_startMarks.2 (.inl ⟨l, ?_, rfl⟩)))
        exact List.mem_flatMap.2 ⟨d, found, named⟩
    · exact absurd named (marks i (lastMark_flat last))
  handlers e mem := by
    have marked : ∀ l ∈ [e.start, e.finish, e.target], b.code.Binds l := fun l named =>
      h.binds (h.started _ (mem_startMarks.2 (.inr ⟨l, List.mem_flatMap.2 ⟨e, mem, named⟩, rfl⟩)))
    exact ⟨marked _ (by simp), marked _ (by simp), marked _ (by simp)⟩
  locals v mem := (h.tables.localMarks v mem).imp h.binds h.binds
  frames f mem := by
    obtain ⟨g, gMem, rfl⟩ := List.mem_map.1 mem
    have marked := h.tables.frameMarks g gMem
    exact ⟨h.binds_of_mark (marked _ (.inl rfl)),
      fun l site => h.binds (marked _ (.inr ⟨l, site, rfl⟩))⟩
  hints f mem := nomatch mem

theorem apart (h : b.Sane limits ctx) (room : b.length + 1 < 4294967296) : b.code.Apart := by
  have bound : boundLabels b.code.insns = _ :=
    boundLabels_withMarks b.tables b.length fun d mem => (h.decoded.sane d mem).executed
  have places : ∀ n ∈ b.decoded.map Prod.fst ++ [b.length], n ≤ b.length := by
    intro n mem
    rcases List.mem_append.1 mem with mem | mem
    · obtain ⟨d, found, rfl⟩ := List.mem_map.1 mem
      exact Nat.le_of_lt (h.decoded.inside d found)
    · exact Nat.le_of_eq (List.mem_singleton.1 mem)
  have small : ∀ n ≤ b.length, (Label.ofNat n).number.toNat = n := fun n inside =>
    UInt32.toNat_ofNat_of_lt' (show n < 4294967296 by omega)
  have once : (b.decoded.map Prod.fst ++ [b.length]).Nodup := by
    refine List.nodup_append.2 ⟨?_, List.nodup_singleton _, ?_⟩
    · exact (List.pairwise_map.2 h.decoded.ascending).imp Nat.ne_of_lt
    · rintro n mem _ last rfl
      obtain ⟨d, found, same⟩ := List.mem_map.1 mem
      have := h.decoded.inside d found
      rw [List.mem_singleton.1 last] at same
      exact Nat.ne_of_lt this same
  refine ⟨?_, fun l stands => ?_⟩
  · rw [bound]
    refine List.Nodup.map_on (fun n mem k mem' same => ?_) (once.filter _)
    rw [← small n (places n (List.mem_of_mem_filter mem)), same,
      small k (places k (List.mem_of_mem_filter mem'))]
  · have mem := mem_boundLabels.2 stands
    rw [bound, List.mem_map] at mem
    obtain ⟨n, mem, rfl⟩ := mem
    have inside := places n (List.mem_of_mem_filter mem)
    show _ < UInt32.ofNat b.length + 1
    rw [UInt32.lt_iff_toNat_lt, small n inside, UInt32.toNat_add, UInt32.toNat_one,
      UInt32.toNat_ofNat_of_lt' (show b.length < 4294967296 by omega), Nat.mod_eq_of_lt room]
    omega

end BodyParts.Sane

theorem labels_of_parse {bytes : Bytes} {c : ClassFile} (parsed : parse bytes = .ok c)
    {m : Method} (mem : m ∈ c.methods) {code : Code} (body : m.code = some code) :
    code.Closed ∧ code.Apart := by
  obtain ⟨t, _, _, all⟩ := sane_parse parsed
  have sane := (all Limits.none (fun _ _ => trivial) fun _ _ => trivial).methods.2 m mem
  have entry : EntrySane Limits.none (c.bodyContext t m) :=
    entrySane trivial trivial fun _ _ _ _ => trivial
  obtain ⟨b, sane, rfl⟩ := sane.body entry code body
  refine ⟨sane.closed, sane.apart ?_⟩
  obtain ⟨ctx, data, fits, run⟩ := readCode_of_parse parsed mem body
  obtain ⟨n, inside, next⟩ := nextLabel_readCode run
  have same : UInt32.ofNat b.length = UInt32.ofNat n := (UInt32.add_left_inj 1).1 next
  have same := congrArg UInt32.toNat same
  rw [UInt32.toNat_ofNat_of_lt' sane.short,
    UInt32.toNat_ofNat_of_lt' (show n < 4294967296 by omega)] at same
  omega

end ClassFile

end ClassWeave
