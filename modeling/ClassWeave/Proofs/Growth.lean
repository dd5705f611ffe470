import Mathlib.Data.List.Forall2
import Mathlib.Tactic.Common
import ClassWeave.WriteError

/-!
# Steps that only extend their tables

Writing a class threads tables that never lose an entry, also when a step fails. `Grows limits m P`
says that `m` keeps well-formed tables well formed, extends them, and answers with something that
has `P` in the tables at hand and in all that extend them. So a fact about an index, once
established, can be used against the tables at the end.
-/

set_option autoImplicit false

namespace ClassWeave

/-- What an entry may hold to be stored unchanged. -/
structure Limits where
  text : String → Prop
  arity : Nat → Prop

def Limits.none : Limits := ⟨fun _ => True, fun _ => True⟩

class Growing (σ : Type) where
  Within : Limits → σ → Prop
  Extends : σ → σ → Prop
  refl : ∀ s, Extends s s
  trans : ∀ s t u, Extends s t → Extends t u → Extends s u

export Growing (Within Extends)

abbrev GrowthOf (σ : Type) := ExceptT WriteError (StateM σ)

def Grows {σ α : Type} [Growing σ] (limits : Limits) (m : GrowthOf σ α) (P : σ → α → Prop) :
    Prop :=
  ∀ s r t, Within limits s → m s = (r, t) →
    Within limits t ∧ Extends s t ∧ ∀ a, r = .ok a → ∀ f, Extends t f → P f a

namespace Grows

variable {σ α β : Type} [Growing σ] {limits : Limits}

theorem mono {m : GrowthOf σ α} {P Q : σ → α → Prop} (hm : Grows limits m P)
    (h : ∀ f a, P f a → Q f a) : Grows limits m Q := by
  intro s r t hs run
  obtain ⟨ht, hst, hP⟩ := hm s r t hs run
  exact ⟨ht, hst, fun a ha f hf => h f a (hP a ha f hf)⟩

theorem pure {a : α} {P : σ → α → Prop} (h : ∀ f, P f a) :
    Grows limits (Pure.pure a : GrowthOf σ α) P := by
  intro s r t hs run
  cases run
  refine ⟨hs, Growing.refl s, fun b hb f _ => ?_⟩
  cases hb
  exact h f

theorem throw (e : WriteError) (P : σ → α → Prop) :
    Grows limits (MonadExcept.throw e : GrowthOf σ α) P := by
  intro s r t hs run
  cases run
  exact ⟨hs, Growing.refl s, fun b hb => nomatch hb⟩

theorem lift {x : Except WriteError α} {P : σ → α → Prop} (h : ∀ f a, x = .ok a → P f a) :
    Grows limits (liftM x : GrowthOf σ α) P := by
  cases x with
  | error e => exact throw e P
  | ok a => exact pure fun f => h f a rfl

/-- The second step may use what holds of the first answer, in the tables at the end and in those
that the second step starts from. -/
theorem bind {m : GrowthOf σ α} {k : α → GrowthOf σ β} {P : σ → α → Prop} {Q : σ → β → Prop}
    (hm : Grows limits m P)
    (hk : ∀ a, (∃ f, P f a) → Grows limits (k a) fun f b => P f a → Q f b) :
    Grows limits (m >>= k) Q := by
  intro s r u hs run
  change ExceptT.bindCont k (m s).1 (m s).2 = _ at run
  rcases first : m s with ⟨e | a, t⟩
  · rw [first] at run
    cases run
    obtain ⟨ht, hst, _⟩ := hm s _ t hs first
    exact ⟨ht, hst, fun b hb => nomatch hb⟩
  · rw [first] at run
    obtain ⟨ht, hst, hP⟩ := hm s _ t hs first
    obtain ⟨hu, htu, hQ⟩ := hk a ⟨t, hP a rfl t (Growing.refl t)⟩ t r u ht run
    refine ⟨hu, Growing.trans s t u hst htu, fun b hb f hf => ?_⟩
    exact hQ b hb f hf (hP a rfl f (Growing.trans t u f htu hf))

theorem mapM {k : α → GrowthOf σ β} {P : σ → α → β → Prop} {as : List α}
    (hk : ∀ a ∈ as, Grows limits (k a) fun f b => P f a b) :
    Grows limits (as.mapM k) fun f bs => List.Forall₂ (P f) as bs := by
  induction as with
  | nil =>
    rw [List.mapM_nil]
    exact pure fun f => .nil
  | cons a as ih =>
    rw [List.mapM_cons]
    refine bind (hk a (List.mem_cons_self ..)) fun b _ => ?_
    refine bind (ih fun c hc => hk c (List.mem_cons_of_mem a hc)) fun bs _ => ?_
    exact pure fun f hbs hb => .cons hb hbs

theorem foldlM {step : β → α → GrowthOf σ β} {P : σ → List α → β → Prop} {as : List α}
    (hstep : ∀ done, ∀ a ∈ as, ∀ b,
      Grows limits (step b a) fun f b' => P f done b → P f (done ++ [a]) b')
    (done : List α) (b : β) :
    Grows limits (as.foldlM step b) fun f b' => P f done b → P f (done ++ as) b' := by
  induction as generalizing done b with
  | nil =>
    rw [List.foldlM_nil]
    refine pure fun f h => ?_
    rwa [List.append_nil]
  | cons a as ih =>
    rw [List.foldlM_cons]
    refine bind (hstep done a (List.mem_cons_self ..) b) fun b' _ => ?_
    have rest := ih (fun done c hc => hstep done c (List.mem_cons_of_mem a hc)) (done ++ [a]) b'
    refine mono rest fun f b'' last first hb => ?_
    have both := last (first hb)
    rwa [List.append_assoc, List.singleton_append] at both

end Grows

/-- The same for runs that succeed with an answer that has `C`, which is all that the tables then
have to keep. -/
def GrowsWhen {σ α : Type} [Growing σ] (limits : Limits) (m : GrowthOf σ α) (C : α → Prop)
    (P : σ → α → Prop) : Prop :=
  ∀ s a t, Within limits s → m s = (.ok a, t) → C a →
    Within limits t ∧ Extends s t ∧ ∀ f, Extends t f → P f a

theorem Grows.when {σ α : Type} [Growing σ] {limits : Limits} {m : GrowthOf σ α} {C : α → Prop}
    {P : σ → α → Prop} (hm : Grows limits m P) : GrowsWhen limits m C P := by
  intro s a t hs run _
  obtain ⟨ht, hst, hP⟩ := hm s (.ok a) t hs run
  exact ⟨ht, hst, hP a rfl⟩

def Answers {σ α : Type} (m : GrowthOf σ α) (C : α → Prop) : Prop :=
  ∀ s a t, m s = (.ok a, t) → C a

theorem bind_run_ok {σ α β : Type} {m : GrowthOf σ α} {k : α → GrowthOf σ β} {s u : σ} {b : β}
    (run : (m >>= k) s = (.ok b, u)) : ∃ a t, m s = (.ok a, t) ∧ k a t = (.ok b, u) := by
  change ExceptT.bindCont k (m s).1 (m s).2 = _ at run
  rcases first : m s with ⟨e | a, t⟩
  · rw [first] at run
    cases run
  · rw [first] at run
    exact ⟨a, t, rfl, run⟩

namespace Answers

variable {σ α β : Type}

theorem pure {a : α} {C : α → Prop} (h : C a) : Answers (Pure.pure a : GrowthOf σ α) C := by
  intro s b t run
  cases run
  exact h

theorem trivial {m : GrowthOf σ α} : Answers m fun _ => True := fun _ _ _ _ => True.intro

theorem throw (e : WriteError) {C : α → Prop} :
    Answers (MonadExcept.throw e : GrowthOf σ α) C := by
  intro s a t run
  cases run

theorem lift {x : Except WriteError α} {C : α → Prop} (h : ∀ a, x = .ok a → C a) :
    Answers (liftM x : GrowthOf σ α) C := by
  cases x with
  | error e => exact throw e
  | ok a => exact pure (h a rfl)

theorem bind {m : GrowthOf σ α} {k : α → GrowthOf σ β} {C : α → Prop} {D : β → Prop}
    (hm : Answers m C) (hk : ∀ a, C a → Answers (k a) D) : Answers (m >>= k) D := by
  intro s b u run
  obtain ⟨a, t, first, second⟩ := bind_run_ok run
  exact hk a (hm s a t first) t b u second

theorem mapM {k : α → GrowthOf σ β} {C : α → β → Prop} {as : List α}
    (hk : ∀ a ∈ as, Answers (k a) (C a)) : Answers (as.mapM k) (List.Forall₂ C as) := by
  induction as with
  | nil =>
    rw [List.mapM_nil]
    exact .pure .nil
  | cons a as ih =>
    rw [List.mapM_cons]
    refine .bind (hk a (List.mem_cons_self ..)) fun b hb => ?_
    exact .bind (ih fun c hc => hk c (List.mem_cons_of_mem a hc)) fun bs hbs => .pure (.cons hb hbs)

theorem foldlM {step : β → α → GrowthOf σ β} {C : List α → β → Prop} {as : List α} {start : β}
    (hstep : ∀ done a b, C done b → Answers (step b a) (C (done ++ [a]))) (hs : C [] start) :
    Answers (as.foldlM step start) (C as) := by
  have from_done : ∀ (as done : List α) (b : β), C done b →
      Answers (as.foldlM step b) (C (done ++ as)) := by
    intro as
    induction as with
    | nil =>
      intro done b hb
      rw [List.append_nil]
      exact .pure hb
    | cons a as ih =>
      intro done b hb
      rw [List.foldlM_cons]
      refine .bind (hstep done a b hb) fun b' hb' => ?_
      have rest := ih (done ++ [a]) b' hb'
      rwa [List.append_assoc] at rest
  exact from_done as [] start hs

end Answers

namespace GrowsWhen

variable {σ α β : Type} [Growing σ] {limits : Limits}

theorem bind {m : GrowthOf σ α} {k : α → GrowthOf σ β} {C : α → Prop} {D : β → Prop}
    {P : σ → α → Prop} {Q : σ → β → Prop} (hm : GrowsWhen limits m C P)
    (back : ∀ a, Answers (k a) fun b => D b → C a)
    (hk : ∀ a, C a → (∃ f, P f a) → GrowsWhen limits (k a) D fun f b => P f a → Q f b) :
    GrowsWhen limits (m >>= k) D Q := by
  intro s b u hs run hD
  obtain ⟨a, t, first, second⟩ := bind_run_ok run
  have hC := back a t b u second hD
  obtain ⟨ht, hst, hP⟩ := hm s a t hs first hC
  obtain ⟨hu, htu, hQ⟩ := hk a hC ⟨t, hP t (Growing.refl t)⟩ t b u ht second hD
  refine ⟨hu, Growing.trans s t u hst htu, fun f hf => ?_⟩
  exact hQ f hf (hP f (Growing.trans t u f htu hf))

theorem bind_grows {m : GrowthOf σ α} {k : α → GrowthOf σ β} {D : β → Prop} {P : σ → α → Prop}
    {Q : σ → β → Prop} (hm : Grows limits m P)
    (hk : ∀ a, (∃ f, P f a) → GrowsWhen limits (k a) D fun f b => P f a → Q f b) :
    GrowsWhen limits (m >>= k) D Q :=
  bind (C := fun _ => True) (Grows.when hm) (fun _ _ _ _ _ _ => True.intro) fun a _ => hk a

theorem mapM {k : α → GrowthOf σ β} {C : α → β → Prop} {P : σ → α → β → Prop} {as : List α}
    (hk : ∀ a ∈ as, GrowsWhen limits (k a) (C a) fun f b => P f a b) :
    GrowsWhen limits (as.mapM k) (List.Forall₂ C as) fun f bs => List.Forall₂ (P f) as bs := by
  induction as with
  | nil =>
    rw [List.mapM_nil]
    exact Grows.when (.pure fun f => .nil)
  | cons a as ih =>
    intro s bs u hs run hC
    rw [List.mapM_cons] at run
    obtain ⟨b, t, first, run⟩ := bind_run_ok run
    obtain ⟨bs', v, second, run⟩ := bind_run_ok run
    cases run
    obtain ⟨hb, hbs⟩ := List.forall₂_cons.1 hC
    obtain ⟨ht, hst, hP⟩ := hk a (List.mem_cons_self ..) s b t hs first hb
    obtain ⟨hu, htu, hQ⟩ := ih (fun c hc => hk c (List.mem_cons_of_mem a hc)) t bs' u ht second hbs
    refine ⟨hu, Growing.trans s t u hst htu, fun f hf => ?_⟩
    exact .cons (hP f (Growing.trans t u f htu hf)) (hQ f hf)

end GrowsWhen

end ClassWeave
