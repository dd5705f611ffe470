import Mathlib.Data.List.Forall2
import Mathlib.Tactic.Common
import ClassWeave.ClassFile.Decode
import ClassWeave.Proofs.StackMap

/-!
# Decoded frames

Frames that were read stand in ascending order, each can be stored behind the one before it, and
what they name may be stored again. The locals on entry to a method name nothing longer than the
descriptor says.
-/

set_option autoImplicit false

namespace ClassWeave

def VType.Sane (limits : Limits) (t : VType) : Prop :=
  t.Within limits ∧ ∀ x, t = .uninit x → ∃ n < 65536, x = Label.ofNat n

structure Frame.Sane (limits : Limits) (frame : Frame) : Prop where
  locals : ∀ t ∈ frame.locals, t.Sane limits
  stack : ∀ t ∈ frame.stack, t.Sane limits

theorem Frame.Sane.within {limits : Limits} {frame : Frame} (h : frame.Sane limits) :
    frame.Within limits :=
  ⟨fun t ht => (h.locals t ht).1, fun t ht => (h.stack t ht).1⟩

theorem Frame.Sane.sites {limits : Limits} {frame : Frame} (h : frame.Sane limits) {x : Label}
    (hx : x ∈ ClassFile.uninitSites frame) : ∃ n < 65536, x = Label.ofNat n := by
  obtain ⟨t, ht, same⟩ := List.mem_filterMap.1 hx
  have sane : t.Sane limits := by
    rcases List.mem_append.1 ht with ht | ht
    · exact h.locals t ht
    · exact h.stack t ht
  split at same
  · cases same
    exact sane.2 _ rfl
  · cases same

namespace StackMap

variable {limits : Limits} {p : Pool}

theorem yields_readType (hp : p.WellFormed limits) : Yields (readType p) (VType.Sane limits) := by
  have plain : ∀ t : VType, (∀ x, t ≠ .uninit x) → t.Within limits → t.Sane limits :=
    fun t fresh within => ⟨within, fun x same => absurd same (fresh x)⟩
  refine .bind (.trivial _) fun tag _ => ?_
  split
  · exact .pure (plain _ (by simp) True.intro)
  · exact .pure (plain _ (by simp) True.intro)
  · exact .pure (plain _ (by simp) True.intro)
  · exact .pure (plain _ (by simp) True.intro)
  · exact .pure (plain _ (by simp) True.intro)
  · exact .pure (plain _ (by simp) True.intro)
  · exact .pure (plain _ (by simp) True.intro)
  · refine .bind (.trivial _) fun i _ => ?_
    refine .bind (.lift fun name h => Pool.text_of_className hp h) fun name hn => .pure ?_
    exact plain _ (by simp) hn
  · refine .bind (.trivial _) fun n _ => .pure ⟨True.intro, fun x same => ?_⟩
    cases same
    exact ⟨n.toNat, n.toNat_lt, rfl⟩
  · exact .throw

def Follows (limits : Limits) (before : List VType) (frame : Frame) : Prop :=
  frame.Reachable before ∧ ((∀ t ∈ before, t.Sane limits) → frame.Sane limits)

theorem follows_same {before stack : List VType} (one : stack.length ≤ 1)
    (sane : ∀ t ∈ stack, t.Sane limits) : Follows limits before ⟨before, stack⟩ :=
  ⟨.inr (.inl ⟨rfl, one⟩), fun known => ⟨known, sane⟩⟩

theorem yields_readChange (hp : p.WellFormed limits) (before : List VType) :
    Yields (readChange p before) fun r => Follows limits before r.2 := by
  have none_on_stack : ∀ t ∈ ([] : List VType), t.Sane limits := fun t ht => nomatch ht
  have one : ∀ {t : VType}, t.Sane limits → Follows limits before ⟨before, [t]⟩ := fun ht =>
    follows_same (Nat.le_refl _) fun u hu => by
      rw [List.mem_singleton.1 hu]
      exact ht
  have same : Follows limits before ⟨before, []⟩ := follows_same (Nat.zero_le _) none_on_stack
  refine .bind (.trivial _) fun tag _ => .ite (fun _ => .pure same) fun _ => ?_
  refine .ite (fun _ => .bind (yields_readType hp) fun t ht => .pure (one ht)) fun _ => ?_
  refine .ite (fun _ => .throw) fun _ => .bind (.trivial _) fun distance _ => ?_
  refine .ite (fun _ => .bind (yields_readType hp) fun t ht => .pure (one ht)) fun _ => ?_
  refine .ite (fun _ => ?_) fun _ => ?_
  · refine .ite (fun _ => .bind .throw fun _ (h : False) => h.elim) fun enough => .pure ?_
    have kept := List.take_prefix (before.length - (251 - tag.toNat)) before
    refine ⟨.inr (.inr ⟨rfl, .inl ⟨kept, ?_⟩⟩), fun known => ⟨fun t ht => ?_, none_on_stack⟩⟩
    · simp only [List.length_take]
      omega
    · exact known t (List.mem_of_mem_take ht)
  refine .ite (fun _ => .pure same) fun _ => .ite (fun _ => ?_) fun _ => ?_
  · refine .bind (.times (yields_readType hp) _) fun more hm => .pure ?_
    refine ⟨.inr (.inr ⟨rfl, .inr ⟨List.prefix_append .., ?_⟩⟩), fun known => ⟨?_, none_on_stack⟩⟩
    · simp only [List.length_append, hm.1]
      omega
    · intro t ht
      rcases List.mem_append.1 ht with ht | ht
      · exact known t ht
      · exact hm.2 t ht
  · refine .bind (.counted (yields_readType hp)) fun locals hl => ?_
    refine .bind (.counted (yields_readType hp)) fun stack hs => .pure ?_
    exact ⟨.inl ⟨hl.1, hs.1⟩, fun _ => ⟨hl.2, hs.2⟩⟩

structure Sequence (limits : Limits) (before : Option Nat) (locals : List VType)
    (frames : List (Nat × Frame)) : Prop where
  ascending : frames.Pairwise (·.1 < ·.1)
  behind : Behind before frames
  reachable : Reachable locals frames
  sane : (∀ t ∈ locals, t.Sane limits) → ∀ g ∈ frames, g.2.Sane limits

theorem yields_readFrames (hp : p.WellFormed limits) (n : Nat) (before : Option Nat)
    (locals : List VType) (done : List (Nat × Frame)) :
    Yields (readFrames p n before locals done) fun frames =>
      ∃ rest, frames = done.reverse ++ rest ∧ Sequence limits before locals rest := by
  induction n generalizing before locals done with
  | zero =>
    refine .pure ⟨[], (List.append_nil _).symm, .nil, ?_, True.intro, ?_⟩
    · exact fun _ _ _ hf => nomatch hf
    · exact fun _ _ hg => nomatch hg
  | succ n ih =>
    refine .bind (yields_readChange hp locals) fun r hr => ?_
    obtain ⟨distance, frame⟩ := r
    refine (ih (some (advance before distance)) frame.locals _).mono fun frames h => ?_
    obtain ⟨rest, same, seq⟩ := h
    have after := seq.behind _ rfl
    refine ⟨(advance before distance, frame) :: rest, ?_, ?_, ?_, ⟨hr.1, seq.reachable⟩, ?_⟩
    · rw [same, List.reverse_cons, List.append_assoc]
      rfl
    · exact List.pairwise_cons.2 ⟨after, seq.ascending⟩
    · intro earlier h g hg
      subst h
      have next : earlier < advance (some earlier) distance := by
        show earlier < earlier + distance + 1
        omega
      rcases List.mem_cons.1 hg with rfl | hg
      · exact next
      · exact Nat.lt_trans next (after g hg)
    · intro known g hg
      have first := hr.2 known
      rcases List.mem_cons.1 hg with rfl | hg
      · exact first
      · exact seq.sane first.locals g hg

theorem sequence_decode (hp : p.WellFormed limits) {initial : List VType} {bytes : Bytes}
    {frames : List (Nat × Frame)} (h : decode p initial bytes = .ok frames) :
    Sequence limits none initial frames := by
  refine Yields.runOn (.bind (.trivial _) fun n _ => ?_) h
  refine (yields_readFrames hp n.toNat none initial []).mono fun frames h => ?_
  obtain ⟨rest, same, seq⟩ := h
  rw [same]
  exact seq

end StackMap

end ClassWeave
