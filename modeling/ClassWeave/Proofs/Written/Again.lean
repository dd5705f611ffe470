import Mathlib.Data.List.Forall2
import Mathlib.Tactic.Common
import ClassWeave.Proofs.Body.Again
import ClassWeave.Proofs.Written.Unflagged

/-!
# Classes written a second time

What is read back of a class that was written is written in the same bytes, under any hierarchy:
every part finds what it asks for in the tables that the writer left, and adds nothing to them.
-/

set_option autoImplicit false

namespace ClassWeave

section

variable {α β γ δ : Type}

theorem zipWith_right (f : β → γ) {as : List α} {bs : List β} (same : as.length = bs.length) :
    List.zipWith (fun _ b => f b) as bs = bs.map f := by
  induction as generalizing bs with
  | nil => rw [List.length_eq_zero_iff.1 same.symm, List.zipWith_nil_left, List.map_nil]
  | cons a as ih =>
    cases bs with
    | nil => cases same
    | cons b bs => rw [List.zipWith_cons_cons, ih (Nat.succ.inj same), List.map_cons]

theorem mapM_zipWith_run {σ : Type} {k : γ → GrowthOf σ δ} {g : α → β → γ} {r : α → β → δ}
    {as : List α} {bs : List β} {f : σ}
    (each : List.Forall₂ (fun a b => k (g a b) f = (.ok (r a b), f)) as bs) :
    (List.zipWith g as bs).mapM k f = (.ok (List.zipWith r as bs), f) := by
  induction each with
  | nil => rfl
  | cons first _ ih =>
    rw [List.zipWith_cons_cons, List.mapM_cons, bind_ok_run first, bind_ok_run ih]
    rfl

end

namespace ClassFile

def WrittenBody.again (t : BodyTarget) (b : WrittenBody) : WrittenBody where
  code := t.readBack b.code b.layout
  layout := b.layout.renamed (b.code.arranged t.withFrames).names b.layout.positions.moved
  bytes := b.bytes

section

variable {limits : Limits} {h : Hierarchy} {owner : String} {major : UInt16} {m : Method}
  {g : Tables}

def Decoded (limits : Limits) (ctx : BodyContext) (m : Method) : Prop :=
  ∀ c, m.code = some c → ∃ b : BodyParts, b.Sane limits ctx ∧ c = b.code

variable (decoded : Decoded limits (BodyTarget.context ⟨h, owner, major, m⟩ g) m) (h' : Hierarchy)

include decoded

theorem again_traceBody :
    GrowsWhen Limits.none (traceBody h owner major m)
      (fun body => body.map WrittenBody.code = m.code)
      fun f body => traceBody h' owner major (readBackMethod h owner major m body) f =
        (.ok (body.map (WrittenBody.again ⟨h, owner, major, m⟩)), f) := by
  intro s body u hs run same
  obtain ⟨hu, grown, _⟩ := extending_traceBody h owner major m s _ u hs run
  refine ⟨hu, grown, fun f last => ?_⟩
  cases hc : m.code with
  | none =>
    rw [hc, Option.map_eq_none_iff] at same
    rw [same]
    rfl
  | some c =>
    unfold traceBody at run
    rw [hc] at run
    obtain ⟨⟨c', l⟩, t, settled, run⟩ := bind_run_ok run
    obtain ⟨bytes, _, stored, run⟩ := bind_run_ok run
    cases run
    obtain ⟨b, sane, rfl⟩ := decoded c hc
    have same : c' = b.code := Option.some.inj (same.trans hc)
    obtain ⟨rfl, laying, reaches⟩ := BodyTarget.settle_narrow sane.narrow settled (by rw [same])
    obtain ⟨ht, _, known⟩ := Layout.grows_known b.code.insns s _ t hs laying
    obtain ⟨_, rest, repeats⟩ := Repeats.encodeSettled _ b.code l t _ u ht stored
    have laid := Layout.answers_ofInsns _ _ _ _ laying
    have short := answers_encodeSettled _ b.code l _ _ _ stored
    obtain ⟨zs, moving⟩ := exists_moving sane laid
    have known := known l rfl f (Growing.trans t u f rest last)
    let again := readBackMethod h owner major m (some ⟨b.code, l, bytes⟩)
    have settled' := moving.settle_readBack short reaches known ⟨h', owner, major, again⟩
    have stored' : BodyTarget.encodeSettled ⟨h', owner, major, again⟩
        (BodyTarget.readBack ⟨h, owner, major, m⟩ b.code l)
        (WrittenBody.again ⟨h, owner, major, m⟩ ⟨b.code, l, bytes⟩).layout f = (.ok bytes, f) :=
      (congrFun (moving.encodeSettled_readBack short) f).trans (repeats bytes rfl f last)
    exact (bind_ok_run settled').trans (bind_ok_run stored')

theorem again_traceMethod :
    GrowsWhen Limits.none (traceMethod h owner major m)
      (fun r => r.2.map WrittenBody.code = m.code)
      fun f r => traceMethod h' owner major (readBackMethod h owner major m r.2) f =
        (.ok (r.1, r.2.map (WrittenBody.again ⟨h, owner, major, m⟩)), f) := by
  refine .bind_grows (Repeats.utf8 m.name) fun i _ => ?_
  refine .bind_grows (Repeats.utf8 m.desc) fun j _ => ?_
  refine .bind (again_traceBody decoded h')
    (fun body => .bind .trivial fun _ _ => .pure fun same => same) fun body _ _ => ?_
  refine Grows.when (.bind (Repeats.encodeAttributes (methodAttributes m body))
    fun attributes _ => .pure fun f stored traced desc name => ?_)
  have stored' : encodeAttributes (methodAttributes (readBackMethod h owner major m body)
      (body.map (WrittenBody.again ⟨h, owner, major, m⟩))) f = (.ok attributes, f) := by
    cases body <;> exact stored
  refine (bind_ok_run name).trans ((bind_ok_run desc).trans ?_)
  exact (bind_ok_run traced).trans (bind_ok_run stored')

end

variable {limits : Limits} {h : Hierarchy} {c : ClassFile} {t : BootstrapTable}

theorem repeats_superIndex (c : ClassFile) : Repeats (superIndex c) := by
  unfold superIndex
  split
  · exact .className _
  · exact .pure _

variable (decoded : ∀ m ∈ c.methods, Decoded limits (c.bodyContext t m) m) (h' : Hierarchy)

include decoded

theorem again_traceMembers (pool : Pool) (attributes : List Attribute) :
    GrowsWhen Limits.none (traceMembers h c)
      (fun r => r.2.map (Option.map WrittenBody.code) = c.methods.map Method.code)
      fun f r => traceMembers h'
        { c with pool := pool, methods := c.readBackMethods h r.2, attributes := attributes } f =
          (.ok (r.1, List.zipWith (fun m => Option.map (WrittenBody.again ⟨h, c.name, c.major, m⟩))
            c.methods r.2), f) := by
  refine .bind_grows (Repeats.className c.name) fun i _ => ?_
  refine .bind_grows (repeats_superIndex c) fun j _ => ?_
  refine .bind_grows (Repeats.mapM Repeats.className c.interfaces) fun interfaces _ => ?_
  refine .bind_grows (Repeats.mapM Repeats.encodeField c.fields) fun fields _ => ?_
  refine .bind (.mapM fun m hm => again_traceMethod (g := ⟨c.pool, t⟩) (decoded m hm) h')
    (fun ms => .pure fun same => ?_) fun methods _ _ => ?_
  · rw [List.map_map] at same
    exact forall₂_of_map_eq same
  refine Grows.when (.pure fun f traced storedFields named superName name => ?_)
  have traced' := mapM_zipWith_run traced
  have length := traced.length_eq
  have back : c.readBackMethods h (methods.map Prod.snd) =
      List.zipWith (fun m r => readBackMethod h c.name c.major m r.2) c.methods methods :=
    List.zipWith_map_right
  refine (bind_ok_run name).trans ((bind_ok_run superName).trans ((bind_ok_run named).trans ?_))
  refine (bind_ok_run storedFields).trans ?_
  dsimp only
  rw [back]
  refine (bind_ok_run traced').trans ?_
  rw [List.zipWith_map_right]
  simp only [List.map_zipWith, zipWith_right _ length, List.length_zipWith, ← length, Nat.min_self]
  rfl

end ClassFile

end ClassWeave
