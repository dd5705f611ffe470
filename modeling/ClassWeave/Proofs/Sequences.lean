import Mathlib.Data.List.Forall2
import Mathlib.Tactic.Common

/-!
# Steps that may fail, one by one and along a list
-/

set_option autoImplicit false

namespace ClassWeave

theorem bind_ok_iff {ε α β : Type} {x : Except ε α} {k : α → Except ε β} {b : β} :
    (x >>= k) = .ok b ↔ ∃ a, x = .ok a ∧ k a = .ok b := by
  cases x with
  | error e => simp [bind, Except.bind]
  | ok a => simp [bind, Except.bind]

theorem exists_ok_bind {ε α β : Type} {x : Except ε α} {k : α → Except ε β} :
    (∃ b, (x >>= k) = .ok b) ↔ ∃ a, x = .ok a ∧ ∃ b, k a = .ok b := by
  simp only [bind_ok_iff]
  exact ⟨fun ⟨b, a, ha, hb⟩ => ⟨a, ha, b, hb⟩, fun ⟨a, ha, b, hb⟩ => ⟨b, a, ha, hb⟩⟩

theorem exists_ok_of_any {ε α : Type} {x : Except ε α} {p : α → Bool}
    (h : x.toOption.any p = true) : ∃ a, x = .ok a ∧ p a = true := by
  cases x with
  | error e => cases h
  | ok a => exact ⟨a, rfl, h⟩

theorem run_bind {ε σ α β : Type} (m : ExceptT ε (StateM σ) α) (k : α → ExceptT ε (StateM σ) β)
    (s : σ) : (m >>= k) s = match m s with
      | (.ok a, s') => k a s'
      | (.error e, s') => (.error e, s') := by
  show ExceptT.bindCont k (m s).1 (m s).2 = _
  rcases m s with ⟨e | a, s'⟩ <;> rfl

theorem mapM_ok_iff {ε α β : Type} {f : α → Except ε β} {as : List α} {bs : List β} :
    as.mapM f = .ok bs ↔ List.Forall₂ (fun a b => f a = .ok b) as bs := by
  induction as generalizing bs with
  | nil =>
    rw [List.mapM_nil, List.forall₂_nil_left_iff]
    constructor
    · intro h
      cases h
      rfl
    · intro h
      rw [h]
      rfl
  | cons a as ih =>
    rw [List.mapM_cons, bind_ok_iff, List.forall₂_cons_left_iff]
    constructor
    · rintro ⟨b, hb, h⟩
      obtain ⟨bs', hbs, h⟩ := bind_ok_iff.1 h
      cases h
      exact ⟨b, bs', hb, ih.1 hbs, rfl⟩
    · rintro ⟨b, bs', hb, hbs, rfl⟩
      exact ⟨b, hb, bind_ok_iff.2 ⟨bs', ih.2 hbs, rfl⟩⟩

theorem mapM_ok {ε α β : Type} {f : α → Except ε β} {as : List α}
    (h : ∀ a ∈ as, ∃ b, f a = .ok b) : ∃ bs, as.mapM f = .ok bs := by
  induction as with
  | nil => exact ⟨[], rfl⟩
  | cons a as ih =>
    obtain ⟨b, hb⟩ := h a (List.mem_cons_self ..)
    obtain ⟨bs, hbs⟩ := ih fun c hc => h c (List.mem_cons_of_mem a hc)
    exact ⟨b :: bs, by rw [List.mapM_cons, hb, hbs]; rfl⟩

theorem exists_error_of_mapM {ε α β : Type} {f : α → Except ε β} {as : List α} {e : ε}
    (h : as.mapM f = .error e) : ∃ a ∈ as, f a = .error e := by
  induction as with
  | nil => cases h
  | cons a as ih =>
    rw [List.mapM_cons] at h
    cases first : f a with
    | error e' =>
      rw [first] at h
      cases h
      exact ⟨a, List.mem_cons_self .., first⟩
    | ok b =>
      rw [first] at h
      cases rest : as.mapM f with
      | error e' =>
        change (as.mapM f >>= _) = _ at h
        rw [rest] at h
        cases h
        obtain ⟨c, mem, fails⟩ := ih rest
        exact ⟨c, List.mem_cons_of_mem a mem, fails⟩
      | ok bs =>
        change (as.mapM f >>= _) = _ at h
        rw [rest] at h
        cases h

def BlamesOnly {ε α : Type} (allowed : ε → Prop) (x : Except ε α) : Prop :=
  ∀ e, x = .error e → allowed e

namespace BlamesOnly

variable {ε α β : Type} {allowed : ε → Prop} {x : Except ε α}

theorem ok {a : α} : BlamesOnly allowed (.ok a : Except ε α) := fun _ failed => nomatch failed

theorem error {e : ε} (own : allowed e) : BlamesOnly allowed (.error e : Except ε α) := by
  rintro _ ⟨⟩
  exact own

theorem of_exists_ok (succeeds : ∃ a, x = .ok a) : BlamesOnly allowed x := by
  obtain ⟨a, rfl⟩ := succeeds
  exact ok

theorem bind (first : BlamesOnly allowed x) {k : α → Except ε β}
    (rest : ∀ a, x = .ok a → BlamesOnly allowed (k a)) : BlamesOnly allowed (x >>= k) := by
  cases x with
  | error e => exact error (first e rfl)
  | ok a => exact rest a rfl

theorem mapM {f : α → Except ε β} {as : List α} (each : ∀ a ∈ as, BlamesOnly allowed (f a)) :
    BlamesOnly allowed (as.mapM f) := by
  induction as with
  | nil => exact ok
  | cons a as ih =>
    obtain ⟨first, rest⟩ := List.forall_mem_cons.1 each
    rw [List.mapM_cons]
    exact bind first fun _ _ => bind (ih rest) fun _ _ => ok

theorem foldlM {f : β → α → Except ε β} {as : List α}
    (each : ∀ b, ∀ a ∈ as, BlamesOnly allowed (f b a)) (b : β) :
    BlamesOnly allowed (as.foldlM f b) := by
  induction as generalizing b with
  | nil => exact ok
  | cons a as ih =>
    rw [List.foldlM_cons]
    refine bind (each b a List.mem_cons_self) fun b' _ => ih (fun b a mem => ?_) b'
    exact each b a (List.mem_cons_of_mem _ mem)

end BlamesOnly

theorem foldlM_append_ok {ε α β : Type} {step : β → α → Except ε β} {as bs : List α} {x y z : β}
    (first : as.foldlM step x = .ok y) (second : bs.foldlM step y = .ok z) :
    (as ++ bs).foldlM step x = .ok z := by
  rw [List.foldlM_append]
  exact bind_ok_iff.2 ⟨y, first, second⟩

variable {α β : Type} {R : α → β → Prop}

theorem exists_left_of_forall₂ {as : List α} {bs : List β} (h : List.Forall₂ R as bs) {b : β}
    (hb : b ∈ bs) : ∃ a ∈ as, R a b := by
  induction h with
  | nil => cases hb
  | cons first _ ih =>
    rcases List.mem_cons.1 hb with rfl | hb
    · exact ⟨_, List.mem_cons_self .., first⟩
    · obtain ⟨a, ha, hab⟩ := ih hb
      exact ⟨a, List.mem_cons_of_mem _ ha, hab⟩

theorem exists_right_of_forall₂ {as : List α} {bs : List β} (h : List.Forall₂ R as bs) {a : α}
    (ha : a ∈ as) : ∃ b ∈ bs, R a b :=
  exists_left_of_forall₂ (R := fun b a => R a b) h.flip ha

theorem forall₂_imp_mem {S : α → β → Prop} {as : List α} {bs : List β}
    (h : List.Forall₂ R as bs) (hi : ∀ a ∈ as, ∀ b ∈ bs, R a b → S a b) :
    List.Forall₂ S as bs := by
  induction h with
  | nil => exact .nil
  | cons first _ ih =>
    refine .cons (hi _ (List.mem_cons_self ..) _ (List.mem_cons_self ..) first) ?_
    exact ih fun a ha b hb => hi a (List.mem_cons_of_mem _ ha) b (List.mem_cons_of_mem _ hb)

theorem forall₂_of_map_eq {γ : Type} {f : α → γ} {g : β → γ} {as : List α} {bs : List β}
    (same : bs.map g = as.map f) : List.Forall₂ (fun a b => g b = f a) as bs := by
  induction as generalizing bs with
  | nil =>
    rw [List.map_nil, List.map_eq_nil_iff] at same
    rw [same]
    exact .nil
  | cons a as ih =>
    obtain ⟨b, bs, rfl, first, rest⟩ := List.map_eq_cons_iff.1 same
    exact .cons first (ih rest)

theorem forall₂_comp {γ : Type} {S : β → γ → Prop} {as : List α} {bs : List β} {cs : List γ}
    (h : List.Forall₂ R as bs) (h' : List.Forall₂ S bs cs) :
    List.Forall₂ (fun a c => ∃ b, R a b ∧ S b c) as cs := by
  induction h generalizing cs with
  | nil =>
    cases h'
    exact .nil
  | cons first _ ih =>
    cases h' with
    | cons first' rest => exact .cons ⟨_, first, first'⟩ (ih rest)

theorem eq_map_of_forall₂ {g : α → β} {as : List α} {bs : List β} (h : List.Forall₂ R as bs)
    (hg : ∀ a b, R a b → b = g a) : bs = as.map g := by
  induction h with
  | nil => rfl
  | cons first _ ih => rw [List.map_cons, ih, hg _ _ first]

theorem forall₂_zipWith {γ : Type} {S : α → γ → Prop} {g : α → β → γ} {as : List α} {bs : List β}
    (h : List.Forall₂ (fun a b => S a (g a b)) as bs) :
    List.Forall₂ S as (List.zipWith g as bs) := by
  induction h with
  | nil => exact .nil
  | cons first _ ih => exact .cons first ih

theorem forall₂_zip {γ : Type} {S : α × β → γ → Prop} {g : α → β → γ} {as : List α} {bs : List β}
    (h : List.Forall₂ (fun a b => S (a, b) (g a b)) as bs) :
    List.Forall₂ S (as.zip bs) (List.zipWith g as bs) := by
  induction h with
  | nil => exact .nil
  | cons first _ ih => exact .cons first ih

theorem forall₂_zipWith_self {R : β → β → Prop} {f : α → β → β} {as : List α} {bs : List β}
    (length : as.length = bs.length) (holds : ∀ a ∈ as, ∀ b ∈ bs, R (f a b) b) :
    List.Forall₂ R (List.zipWith f as bs) bs := by
  induction as generalizing bs with
  | nil =>
    cases bs with
    | nil => exact .nil
    | cons b bs => cases length
  | cons a as ih =>
    cases bs with
    | nil => cases length
    | cons b bs =>
      constructor
      · exact holds a List.mem_cons_self b List.mem_cons_self
      · apply ih (Nat.succ.inj length)
        exact fun a' ha b' hb => holds a' (List.mem_cons_of_mem a ha) b' (List.mem_cons_of_mem b hb)

theorem forall₂_zipWith_left {γ : Type} {f : α → γ → α} {as : List α} {bs : List β} {cs : List γ}
    (length : as.length = cs.length) (related : List.Forall₂ R as bs)
    (holds : ∀ a ∈ as, ∀ b ∈ bs, ∀ c ∈ cs, R a b → R (f a c) b) :
    List.Forall₂ R (List.zipWith f as cs) bs := by
  induction related generalizing cs with
  | nil => exact .nil
  | @cons a b as bs first rest ih =>
    cases cs with
    | nil => cases length
    | cons c cs =>
      constructor
      · exact holds a List.mem_cons_self b List.mem_cons_self c List.mem_cons_self first
      · apply ih (Nat.succ.inj length)
        intro a' ha b' hb c' hc
        exact holds a' (List.mem_cons_of_mem a ha) b' (List.mem_cons_of_mem b hb) c'
          (List.mem_cons_of_mem c hc)

theorem mem_zipWith {γ : Type} {f : α → β → γ} {as : List α} {bs : List β} {c : γ}
    (mem : c ∈ List.zipWith f as bs) : ∃ a ∈ as, ∃ b ∈ bs, c = f a b := by
  rw [← List.map_uncurry_zip_eq_zipWith, List.mem_map] at mem
  obtain ⟨⟨a, b⟩, mem, rfl⟩ := mem
  exact ⟨a, (List.of_mem_zip mem).1, b, (List.of_mem_zip mem).2, rfl⟩

theorem order_of_pairwise {S : α → α → Prop} {l : List α} (h : l.Pairwise S) {a b : α} (ha : a ∈ l)
    (hb : b ∈ l) : a = b ∨ S a b ∨ S b a := by
  induction h with
  | nil => cases ha
  | cons first _ ih =>
    rcases List.mem_cons.1 ha with rfl | ha'
    · rcases List.mem_cons.1 hb with rfl | hb'
      · exact .inl rfl
      · exact .inr (.inl (first b hb'))
    · rcases List.mem_cons.1 hb with rfl | hb'
      · exact .inr (.inr (first a ha'))
      · exact ih ha' hb'

theorem length_flatten_of_forall {k : Nat} {chunks : List (List α)}
    (h : ∀ chunk ∈ chunks, chunk.length = k) : chunks.flatten.length = k * chunks.length := by
  induction chunks with
  | nil => rfl
  | cons chunk chunks ih =>
    have first := h chunk (List.mem_cons_self ..)
    have rest := ih fun c hc => h c (List.mem_cons_of_mem _ hc)
    rw [List.flatten_cons, List.length_append, first, rest, List.length_cons, Nat.mul_succ]
    omega

end ClassWeave
