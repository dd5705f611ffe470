import Mathlib.Data.List.Forall2
import Mathlib.Tactic.Common
import ClassWeave.Proofs.Body.Rewritten
import ClassWeave.Proofs.Body.Unflagged
import ClassWeave.Proofs.Decoding.Classes

/-!
# Classes without the flags of field handles

A class whose bodies are written as they stand is written in the same bytes, against the same
tables, without the flags of its field handles.
-/

set_option autoImplicit false

namespace ClassWeave

def Method.unflagged (m : Method) : Method := { m with code := m.code.map Code.unflagged }

theorem mapM_run_map {σ α α' β β' : Type} {k : α → GrowthOf σ β} {k' : α' → GrowthOf σ β'}
    {r : α → α'} {g : β → β'} {C : α → β → Prop} {as : List α} {bs : List β} {s u : σ}
    (each : ∀ a ∈ as, ∀ s b t, k a s = (.ok b, t) → C a b → k' (r a) s = (.ok (g b), t))
    (run : as.mapM k s = (.ok bs, u)) (hC : List.Forall₂ C as bs) :
    (as.map r).mapM k' s = (.ok (bs.map g), u) := by
  induction as generalizing bs s with
  | nil =>
    cases run
    rfl
  | cons a as ih =>
    rw [List.mapM_cons] at run
    obtain ⟨b, t, first, run⟩ := bind_run_ok run
    obtain ⟨bs, v, second, run⟩ := bind_run_ok run
    cases run
    obtain ⟨hb, hbs⟩ := List.forall₂_cons.1 hC
    have rest := ih (fun c hc => each c (List.mem_cons_of_mem a hc)) second hbs
    rw [List.map_cons, List.mapM_cons, bind_ok_run (each a (List.mem_cons_self ..) s b t first hb),
      bind_ok_run rest]
    rfl

namespace ClassFile

def unflagged (c : ClassFile) : ClassFile := { c with methods := c.methods.map Method.unflagged }

def WrittenBody.unflagged (b : WrittenBody) : WrittenBody :=
  ⟨b.code.unflagged, b.layout.unflagged, b.bytes⟩

def Written.unflagged (w : Written) : Written :=
  { w with bodies := w.bodies.map (Option.map WrittenBody.unflagged) }

section

variable {h : Hierarchy} {owner : String} {major : UInt16} {m : Method} {s u : Tables}

theorem traceBody_unflagged (narrow : ∀ c, m.code = some c → c.Narrow) {body : Option WrittenBody}
    (run : traceBody h owner major m s = (.ok body, u))
    (same : body.map WrittenBody.code = m.code) :
    traceBody h owner major m.unflagged s = (.ok (body.map WrittenBody.unflagged), u) := by
  unfold traceBody at run ⊢
  cases hc : m.code with
  | none =>
    rw [hc] at run
    rw [Method.unflagged, hc]
    cases run
    rfl
  | some c =>
    rw [hc] at run
    obtain ⟨⟨c', l⟩, t, settled, run⟩ := bind_run_ok run
    obtain ⟨bytes, _, stored, run⟩ := bind_run_ok run
    cases run
    have same : c' = c := Option.some.inj (same.trans hc)
    obtain ⟨rfl, laid, reaches⟩ := BodyTarget.settle_narrow (narrow c hc) settled (by rw [same])
    have stored' : BodyTarget.encodeSettled ⟨h, owner, major, m.unflagged⟩ c'.unflagged
        l.unflagged t = (.ok bytes, u) := by
      rw [encodeSettled_unflagged]
      exact stored
    have code : m.unflagged.code = some c'.unflagged := by
      rw [Method.unflagged, hc]
      rfl
    rw [code]
    dsimp only
    rw [bind_ok_run (settle_unflagged (narrow c' hc).framed laid reaches), bind_ok_run stored']
    rfl

theorem traceMethod_unflagged (narrow : ∀ c, m.code = some c → c.Narrow)
    {r : Bytes × Option WrittenBody} (run : traceMethod h owner major m s = (.ok r, u))
    (same : r.2.map WrittenBody.code = m.code) :
    traceMethod h owner major m.unflagged s =
      (.ok (r.1, r.2.map WrittenBody.unflagged), u) := by
  obtain ⟨i, t₁, name, run⟩ := bind_run_ok run
  obtain ⟨j, t₂, desc, run⟩ := bind_run_ok run
  obtain ⟨body, t₃, traced, run⟩ := bind_run_ok run
  obtain ⟨attributes, _, stored, run⟩ := bind_run_ok run
  cases run
  have stored' : encodeAttributes
      (methodAttributes m.unflagged (body.map WrittenBody.unflagged)) t₃ =
        (.ok attributes, u) := by
    cases body <;> exact stored
  refine (bind_ok_run name).trans ((bind_ok_run desc).trans ?_)
  exact (bind_ok_run (traceBody_unflagged narrow traced same)).trans (bind_ok_run stored')

end

variable {h : Hierarchy} {c : ClassFile} {s u : Tables}

theorem traceMembers_unflagged (narrow : ∀ m ∈ c.methods, ∀ code, m.code = some code → code.Narrow)
    {r : Bytes × List (Option WrittenBody)} (run : traceMembers h c s = (.ok r, u))
    (same : r.2.map (Option.map WrittenBody.code) = c.methods.map Method.code) :
    traceMembers h c.unflagged s =
      (.ok (r.1, r.2.map (Option.map WrittenBody.unflagged)), u) := by
  obtain ⟨i, t₁, name, run⟩ := bind_run_ok run
  obtain ⟨j, t₂, superName, run⟩ := bind_run_ok run
  obtain ⟨interfaces, t₃, named, run⟩ := bind_run_ok run
  obtain ⟨fields, t₄, storedFields, run⟩ := bind_run_ok run
  obtain ⟨methods, _, traced, run⟩ := bind_run_ok run
  cases run
  rw [List.map_map] at same
  have traced' : (c.methods.map Method.unflagged).mapM (traceMethod h c.name c.major) t₄ =
      (.ok (methods.map fun r => (r.1, r.2.map WrittenBody.unflagged)), u) :=
    mapM_run_map (fun m hm s r t run same => traceMethod_unflagged (narrow m hm) run same) traced
      (forall₂_of_map_eq same)
  refine (bind_ok_run name).trans ((bind_ok_run superName).trans ((bind_ok_run named).trans ?_))
  refine (bind_ok_run storedFields).trans ((bind_ok_run traced').trans ?_)
  simp only [unflagged, List.length_map, List.map_map]
  rfl

theorem write_unflagged (narrow : ∀ m ∈ c.methods, ∀ code, m.code = some code → code.Narrow)
    {w : Written} (run : write h c = .ok w)
    (same : w.bodies.map (Option.map WrittenBody.code) = c.methods.map Method.code) :
    write h c.unflagged = .ok w.unflagged := by
  obtain ⟨t, members, middle, attributes, known, traced, stored, bytes⟩ := write_cases run
  have whole := write_of_parts (c := c.unflagged) known
    (traceMembers_unflagged narrow traced same) stored
  rw [whole, Written.unflagged, bytes]
  rfl

theorem BodyParts.Sane.narrow {limits : Limits} {ctx : BodyContext} {b : BodyParts}
    (sane : b.Sane limits ctx) : b.code.Narrow where
  framed := rfl
  narrow := by
    refine Moving.forall_insns (fun i mark => ?_) fun d hd => ?_
    · cases i <;> first | rfl | exact absurd rfl mark
    · have plain := (sane.decoded.sane d hd).plain
      cases hi : d.2 with
      | jump op target =>
        have short := plain op target hi
        refine Bool.eq_false_iff.2 fun wide => ?_
        simp only [Insn.isWideBranch, Opcode.isWideJump, Bool.or_eq_true, beq_iff_eq] at wide
        rcases wide with rfl | rfl <;> cases short
      | _ => rfl

theorem Sane.unflagged {limits : Limits} {t : BootstrapTable} (sane : c.Sane limits t) :
    c.unflagged.Sane limits t where
  pool := sane.pool
  table := sane.table
  name := sane.name
  superName := sane.superName
  interfaces := sane.interfaces
  fields := sane.fields
  methods := by
    obtain ⟨count, methods⟩ := sane.methods
    refine ⟨?_, List.forall_mem_map.2 fun m hm => ?_⟩
    · show (c.methods.map _).length < _
      rwa [List.length_map]
    · have known := methods m hm
      refine ⟨known.name, known.desc, known.attributes, ?_, known.names, fun entry code same => ?_⟩
      · have count := known.attributeCount
        unfold Method.unflagged
        cases hc : m.code <;> rw [hc] at count <;> exact count
      · obtain ⟨code, hc, rfl⟩ := Option.map_eq_some_iff.1 same
        obtain ⟨b, hb, rfl⟩ := known.body entry code hc
        exact ⟨b.unflagged, hb.unflagged, (b.code_unflagged).symm⟩
  attributes := sane.attributes

theorem BodyParts.Sane.resolvable_unflagged {limits : Limits} {ctx : BodyContext} {b : BodyParts}
    (sane : b.Sane limits ctx) : ∀ i ∈ b.code.unflagged.insns, i.Resolvable := by
  refine List.forall_mem_map.2 (Moving.forall_insns (fun i mark => ?_) fun d hd =>
    (sane.decoded.sane d hd).unflagged)
  cases i <;> first | exact True.intro | exact absurd rfl mark

end ClassFile

end ClassWeave
