import Mathlib.Data.List.Forall2
import Mathlib.Tactic.Common
import ClassWeave.Proofs.Body

/-!
# Members read back

A field reads back as it was written, and a method as itself with its settled body. Which body that
is depends on the tables at hand, so the writer of a method is told apart from its trace, which
keeps the body.
-/

set_option autoImplicit false

namespace ClassWeave

structure Field.Within (limits : Limits) (f : Field) : Prop where
  name : limits.text f.name
  desc : limits.text f.desc
  attributes : ∀ a ∈ f.attributes, limits.text a.name

structure Method.Within (limits : Limits) (m : Method) : Prop where
  name : limits.text m.name
  desc : limits.text m.desc
  attributes : ∀ a ∈ m.attributes, limits.text a.name
  insns : ∀ c, m.code = some c → ∀ i ∈ c.insns, i.Within limits

namespace ClassFile

/-- A body as it is written: settled, laid out and stored. -/
structure WrittenBody where
  code : Code
  layout : Layout
  bytes : Bytes

section

variable (h : Hierarchy) (owner : String) (major : UInt16) (m : Method)

def traceBody : Tables.Growth (Option WrittenBody) :=
  match m.code with
  | some c => do
    let s ← BodyTarget.settle ⟨h, owner, major, m⟩ c
    let bytes ← BodyTarget.encodeSettled ⟨h, owner, major, m⟩ s.1 s.2
    return some ⟨s.1, s.2, bytes⟩
  | none => pure none

def WrittenBody.attribute (b : WrittenBody) : Attribute := ⟨"Code", b.bytes⟩

def methodAttributes (body : Option WrittenBody) : List Attribute :=
  body.toList.map WrittenBody.attribute ++ m.attributes

def traceMethod : Tables.Growth (Bytes × Option WrittenBody) := do
  let name ← Tables.utf8 m.name
  let desc ← Tables.utf8 m.desc
  let body ← traceBody h owner major m
  let attributes ← encodeAttributes (methodAttributes m body)
  return (Bytes.be 2 m.access.bits.toNat ++ Bytes.be 2 name.toNat ++ Bytes.be 2 desc.toNat ++
    attributes, body)

theorem encodeMethod_eq :
    encodeMethod h owner major m = Prod.fst <$> traceMethod h owner major m := by
  unfold encodeMethod traceMethod traceBody methodAttributes
  cases hc : m.code with
  | none => simp
  | some c => simp [BodyTarget.encodeCode_eq, WrittenBody.attribute]

def readBackMethod (body : Option WrittenBody) : Method :=
  { m with code := body.map fun b => BodyTarget.readBack ⟨h, owner, major, m⟩ b.code b.layout }

/-- The counts and lengths of a method fit their fields, no other attribute passes for its body,
and what its body is stored in fits. -/
structure MethodFits (body : Option WrittenBody) : Prop where
  attributeCount : (methodAttributes m body).length < 65536
  lengths : ∀ a ∈ methodAttributes m body, a.Fits
  names : ∀ a ∈ m.attributes, a.name ≠ "Code"
  body : ∀ b, body = some b → BodyTarget.SettledFit ⟨h, owner, major, m⟩ b.code b.layout

end

variable {limits : Limits} {h : Hierarchy} {owner : String} {major : UInt16}

theorem readsAt_readUtf8 {p : Pool} {i : UInt16} {text : String} (found : p.utf8 i = .ok text)
    {o : Nat} : ReadsAt o (readUtf8 p) (Bytes.be 2 i.toNat) text :=
  .bind_last (.u16_toNat i) (.lift found)

theorem grows_encodeField {f : Field} (within : f.Within limits) :
    Grows limits (encodeField f) fun t bytes => f.attributes.length < 65536 →
      (∀ a ∈ f.attributes, a.Fits) → ∀ o, ReadsAt o (readField t.pool) bytes f := by
  refine .bind (Tables.grows_utf8 within.name) fun i _ => ?_
  refine .bind (Tables.grows_utf8 within.desc) fun j _ => ?_
  refine .bind (grows_encodeAttributes within.attributes) fun attributes _ => ?_
  refine .pure fun t hattributes hj hi count fits o => ?_
  obtain ⟨chunks, rfl, hattributes⟩ := hattributes
  simp only [List.append_assoc]
  refine .bind (.u16_toNat f.access.bits) (.bind (readsAt_readUtf8 hi.2) ?_)
  refine .bind (readsAt_readUtf8 hj.2) (.bind_last ?_ (.pure f))
  exact hattributes.readsAt count fits _

theorem decodeMethod_eq {p : Pool} {t : BootstrapTable} {m : StoredMethod} {body : List Attribute}
    {attributes : List Attribute} (split : m.attributes = body ++ attributes)
    (code : ∀ a ∈ body, a.name = "Code") (others : ∀ a ∈ attributes, a.name ≠ "Code")
    {read : Option Code}
    (h : body = [] ∧ read = none ∨ ∃ data c, body = [⟨"Code", data⟩] ∧
      (readCode ⟨p, t, owner, m.access, m.name, m.desc⟩).runOn data = .ok c ∧ read = some c) :
    decodeMethod p t owner m = .ok ⟨m.access, m.name, m.desc, read, attributes⟩ := by
  have bodies : m.attributes.filter (·.name == "Code") = body := by
    rw [split, List.filter_append, List.filter_eq_self.2 (by simpa using code),
      List.filter_eq_nil_iff.2 (by simpa using others), List.append_nil]
  have rest : m.attributes.filter (·.name != "Code") = attributes := by
    rw [split, List.filter_append, List.filter_eq_nil_iff.2 (by simpa using code),
      List.filter_eq_self.2 (by simpa using others), List.nil_append]
  unfold decodeMethod
  rw [bodies, rest]
  rcases h with ⟨rfl, rfl⟩ | ⟨data, c, rfl, run, rfl⟩
  · rfl
  · refine bind_ok_iff.2 ⟨some c, ?_, rfl⟩
    show some <$> (readCode _).runOn data = _
    rw [run]
    rfl

def MethodRead (h : Hierarchy) (owner : String) (major : UInt16) (f : Tables) (m : Method)
    (body : Option WrittenBody) (bytes : Bytes) : Prop :=
  ∃ stored : StoredMethod, (∀ o, ReadsAt o (readMethod f.pool) bytes stored) ∧
    decodeMethod f.pool f.bootstraps owner stored = .ok (readBackMethod h owner major m body)

/-- The settled body fits, its instructions are well shaped, and all that it names may be stored. -/
structure BodyReady (limits : Limits) (h : Hierarchy) (owner : String) (major : UInt16) (m : Method)
    (body : Option WrittenBody) : Prop where
  fits : MethodFits h owner major m body
  shaped : ∀ b, body = some b → ∀ i ∈ b.code.insns, i.Shaped
  within : ∀ b, body = some b → b.code.Within limits

theorem growsWhen_traceBody (names : limits.Names) {m : Method} (within : m.Within limits) :
    GrowsWhen limits (traceBody h owner major m) (BodyReady limits h owner major m) fun f body =>
      ∀ b, body = some b → (readCode (BodyTarget.context ⟨h, owner, major, m⟩ f)).runOn b.bytes =
        .ok (BodyTarget.readBack ⟨h, owner, major, m⟩ b.code b.layout) := by
  unfold traceBody
  cases hc : m.code with
  | none => exact Grows.when (.pure fun f b same => nomatch same)
  | some c =>
    refine .bind (C := fun s => ∃ bytes, BodyReady limits h owner major m (some ⟨s.1, s.2, bytes⟩))
      (Grows.when (BodyTarget.grows_settle (within.insns c hc)))
      (fun s => .bind .trivial fun bytes _ => .pure fun ready => ⟨bytes, ready⟩)
      fun s ready valid => ?_
    obtain ⟨_, ready⟩ := ready
    obtain ⟨_, valid⟩ := valid
    have written := BodyTarget.grows_encodeSettled (t := ⟨h, owner, major, m⟩) names
      (ready.within _ rfl) (ready.shaped _ rfl) (ready.fits.body _ rfl) valid.toLaid
    refine .bind (C := fun bytes => BodyReady limits h owner major m (some ⟨s.1, s.2, bytes⟩))
      (Grows.when written) (fun bytes => .pure fun ready => ready) fun bytes ready _ => ?_
    refine Grows.when (.pure fun f read valid b same => ?_)
    cases same
    have small : Attribute.Fits ⟨"Code", bytes⟩ := ready.fits.lengths _ (List.mem_cons_self ..)
    exact (read valid small).all.runOn

theorem growsWhen_traceMethod (names : limits.Names) {m : Method} (within : m.Within limits) :
    GrowsWhen limits (traceMethod h owner major m)
      (fun r => BodyReady limits h owner major m r.2)
      fun f r => MethodRead h owner major f m r.2 r.1 := by
  refine .bind_grows (Tables.grows_utf8 within.name) fun i _ => ?_
  refine .bind_grows (Tables.grows_utf8 within.desc) fun j _ => ?_
  refine .bind (growsWhen_traceBody names within)
    (fun body => .bind .trivial fun _ _ => .pure fun ready => ready) fun body ready _ => ?_
  have code : ∀ a ∈ body.toList.map WrittenBody.attribute, a.name = "Code" := fun a ha => by
    obtain ⟨b, _, rfl⟩ := List.mem_map.1 ha
    rfl
  have texts : ∀ a ∈ methodAttributes m body, limits.text a.name := by
    intro a ha
    rcases List.mem_append.1 ha with ha | ha
    · rw [code a ha]
      exact names _ (by simp)
    · exact within.attributes a ha
  refine Grows.when (.bind (grows_encodeAttributes texts) fun attributes _ => ?_)
  refine .pure fun f hattributes read hj hi => ?_
  obtain ⟨chunks, rfl, hattributes⟩ := hattributes
  refine ⟨⟨m.access, m.name, m.desc, methodAttributes m body⟩, fun o => ?_, ?_⟩
  · simp only [List.append_assoc]
    refine .bind (.u16_toNat m.access.bits) (.bind (readsAt_readUtf8 hi.2) ?_)
    refine .bind (readsAt_readUtf8 hj.2) (.bind_last ?_ (.pure _))
    exact hattributes.readsAt ready.fits.attributeCount ready.fits.lengths _
  · refine decodeMethod_eq rfl code ready.fits.names ?_
    rcases body with _ | b
    · exact .inl ⟨rfl, rfl⟩
    · exact .inr ⟨b.bytes, _, rfl, read b rfl, rfl⟩

/-- What is known of a body once it has been written: it is laid out in a code array that is not too
large, and lasting properties of the given instructions hold of its own. -/
structure Settles (m : Method) (body : Option WrittenBody) : Prop where
  isSome_eq : body.isSome = m.code.isSome
  laid : ∀ b, body = some b → Layout.Laid b.code.insns b.layout
  short : ∀ b, body = some b → b.layout.length ≤ 65535
  lasting : ∀ P, Insn.Lasting P → (∀ c, m.code = some c → ∀ i ∈ c.insns, P i) →
    ∀ b, body = some b → ∀ i ∈ b.code.insns, P i

theorem answers_encodeSettled (t : BodyTarget) (c : Code) (l : Layout) :
    Answers (t.encodeSettled c l) fun _ => l.length ≤ 65535 := by
  unfold BodyTarget.encodeSettled
  dsimp only
  split
  · exact .bind (.throw _) fun _ (h : False) => h.elim
  · rename_i inside
    intro _ _ _ _
    exact Nat.not_lt.1 inside

theorem answers_traceBody (m : Method) : Answers (traceBody h owner major m) (Settles m) := by
  intro tables body rest run
  have laid : ∀ P, Insn.Lasting P → (∀ c, m.code = some c → ∀ i ∈ c.insns, P i) →
      Answers (traceBody h owner major m) fun body => body.isSome = m.code.isSome ∧
        ∀ b, body = some b → (Layout.Laid b.code.insns b.layout ∧ ∀ i ∈ b.code.insns, P i) ∧
          b.layout.length ≤ 65535 := by
    intro P lasting hP
    unfold traceBody
    cases hc : m.code with
    | none => exact .pure ⟨rfl, nofun⟩
    | some c =>
      refine .bind (BodyTarget.answers_settle lasting (hP c hc)) fun s hs => ?_
      refine .bind (answers_encodeSettled _ _ _) fun bytes short => .pure ⟨rfl, fun b same => ?_⟩
      cases same
      exact ⟨hs, short⟩
  have known := laid (fun _ => True) Insn.lasting_true (fun _ _ _ _ => True.intro) _ _ _ run
  refine ⟨known.1, fun b same => (known.2 b same).1.1, fun b same => (known.2 b same).2, ?_⟩
  intro P lasting hP b same
  exact ((laid P lasting hP _ _ _ run).2 b same).1.2

theorem answers_traceMethod (m : Method) :
    Answers (traceMethod h owner major m) fun r => Settles m r.2 := by
  refine .bind .trivial fun i _ => .bind .trivial fun j _ => ?_
  exact .bind (answers_traceBody m) fun body settles => .bind .trivial fun _ _ => .pure settles

end ClassFile

end ClassWeave
