import Mathlib.Tactic.Common
import ClassWeave.Proofs.Emission

/-!
# Field handles without their flag

A handle that reads or writes a field is stored with a field reference, also where the one that was
read refers to an interface's method. The flag that says so has no stored form: with it cleared
everything is interned at the same indices, and what a reader resolves it resolves again.
-/

set_option autoImplicit false

namespace ClassWeave

def Handle.unflagged (h : Handle) : Handle :=
  if h.isField then { h with ofInterface := false } else h

theorem Handle.plain_unflagged (h : Handle) : h.unflagged.Plain := by
  unfold unflagged
  split
  · exact fun _ => rfl
  · rename_i other
    exact fun field => absurd field other

theorem Handle.member_unflagged (h : Handle) : h.unflagged.member = h.member := by
  unfold unflagged
  split <;> rfl

@[simp] theorem Handle.unflagged_unflagged (h : Handle) : h.unflagged.unflagged = h.unflagged := by
  obtain ⟨kind, member, flag⟩ := h
  cases field : Handle.isField ⟨kind, member, flag⟩ with
  | true =>
    have cleared : Handle.unflagged ⟨kind, member, flag⟩ = ⟨kind, member, false⟩ := by
      rw [unflagged, if_pos field]
    rw [cleared, unflagged, if_pos (by exact field)]
  | false =>
    have kept : Handle.unflagged ⟨kind, member, flag⟩ = ⟨kind, member, flag⟩ := by
      rw [unflagged, if_neg (by rw [field]; decide)]
    rw [kept, kept]

theorem Pool.internHandle_unflagged (h : Handle) : internHandle h.unflagged = internHandle h := by
  obtain ⟨kind, member, flag⟩ := h
  unfold internHandle Handle.unflagged
  cases field : Handle.isField ⟨kind, member, flag⟩ with
  | true =>
    have field' : Handle.isField ⟨kind, member, false⟩ = true := field
    rw [if_pos rfl, if_pos rfl, if_pos field']
  | false => rw [if_neg Bool.false_ne_true, field]

mutual

def Loadable.unflagged : Loadable → Loadable
  | .handle h => .handle h.unflagged
  | .dynamic name desc h args => .dynamic name desc h.unflagged (unflaggedAll args)
  | v => v

def Loadable.unflaggedAll : List Loadable → List Loadable
  | [] => []
  | v :: vs => unflagged v :: unflaggedAll vs

end

def Bootstrap.unflagged (b : Bootstrap) : Bootstrap where
  handle := b.handle.unflagged
  args := Loadable.unflaggedAll b.args

def Insn.unflagged : Insn → Insn
  | .callSite name desc b => .callSite name desc b.unflagged
  | .ldc v => .ldc v.unflagged
  | insn => insn

namespace Loadable

theorem unflaggedAll_eq (vs : List Loadable) : unflaggedAll vs = vs.map unflagged := by
  induction vs with
  | nil => rfl
  | cons v vs ih => rw [unflaggedAll, ih, List.map_cons]

mutual

theorem unflagged_unflagged (v : Loadable) : v.unflagged.unflagged = v.unflagged := by
  cases v with
  | handle h => rw [unflagged, unflagged, h.unflagged_unflagged]
  | dynamic name desc h args =>
    rw [unflagged, unflagged, h.unflagged_unflagged, unflaggedAll_unflaggedAll args]
  | _ =>
    rw [unflagged]
    · rw [unflagged] <;> nofun
    all_goals nofun

theorem unflaggedAll_unflaggedAll (vs : List Loadable) :
    unflaggedAll (unflaggedAll vs) = unflaggedAll vs := by
  cases vs with
  | nil => rfl
  | cons v vs =>
    rw [unflaggedAll, unflaggedAll, unflagged_unflagged v, unflaggedAll_unflaggedAll vs]

end

theorem isWide_unflagged (v : Loadable) : v.unflagged.isWide = v.isWide := by
  cases v <;> rw [unflagged] <;> first | rfl | nofun

end Loadable

namespace Tables

mutual

theorem internLoadable_unflagged (v : Loadable) :
    internLoadable v.unflagged = internLoadable v := by
  cases v with
  | handle h => rw [Loadable.unflagged, internLoadable, internLoadable, Pool.internHandle_unflagged]
  | dynamic name desc h args =>
    rw [Loadable.unflagged, internLoadable, internLoadable, Pool.internHandle_unflagged,
      internLoadables_unflagged args]
  | _ => rw [Loadable.unflagged] <;> nofun

theorem internLoadables_unflagged (vs : List Loadable) :
    internLoadables (Loadable.unflaggedAll vs) = internLoadables vs := by
  cases vs with
  | nil => rw [Loadable.unflaggedAll]
  | cons v vs =>
    rw [Loadable.unflaggedAll, internLoadables, internLoadables, internLoadable_unflagged v,
      internLoadables_unflagged vs]

end

theorem internBootstrap_unflagged (b : Bootstrap) :
    internBootstrap b.unflagged = internBootstrap b := by
  unfold internBootstrap
  rw [Bootstrap.unflagged, Pool.internHandle_unflagged, internLoadables_unflagged]

theorem internCallSite_unflagged (name desc : String) (b : Bootstrap) :
    internCallSite name desc b.unflagged = internCallSite name desc b := by
  unfold internCallSite
  rw [internBootstrap_unflagged]

end Tables

namespace BootstrapTable

variable {p : Pool} {t : BootstrapTable}

theorem unflagged_of_loadableWith {resolve : UInt16 → Except FormatError Bootstrap} {levels : Nat}
    (hr : ∀ k b, resolve k = .ok b → ∃ n, levels = n + 1 ∧ b.unflagged.Resolvable n) {i : UInt16}
    {v : Loadable} (h : loadableWith p resolve i = .ok v) : v.unflagged.Resolvable levels := by
  rcases loadableWith_cases h with ⟨n, rfl⟩ | ⟨n, rfl⟩ | ⟨n, rfl⟩ | ⟨n, rfl⟩ |
    ⟨text, j, ht, rfl | rfl | rfl⟩ | ⟨handle, hh, rfl⟩ | ⟨name, desc, j, k, b, hn, hb, rfl⟩
  case inr.inr.inr.inr.inr.inl =>
    rw [Loadable.unflagged, Loadable.Resolvable]
    exact handle.plain_unflagged
  case inr.inr.inr.inr.inr.inr =>
    obtain ⟨n, rfl, hb⟩ := hr k b hb
    rw [Loadable.unflagged, Loadable.Resolvable]
    exact ⟨hb.handle, Loadable.allResolvable_iff.2 hb.args⟩
  all_goals simp [Loadable.unflagged, Loadable.Resolvable]

theorem unflagged_of_bootstrapAt {levels : Nat} {i : UInt16} {b : Bootstrap}
    (h : bootstrapAt t p levels i = .ok b) : ∃ n, levels = n + 1 ∧ b.unflagged.Resolvable n := by
  induction levels generalizing i b with
  | zero => cases h
  | succ levels ih =>
    obtain ⟨n, entry, same, _, _, hargs⟩ := bootstrapAt_cases h
    cases same
    refine ⟨levels, rfl, b.handle.plain_unflagged, fun x hx => ?_⟩
    rw [Bootstrap.unflagged, Loadable.unflaggedAll_eq] at hx
    obtain ⟨v, hv, rfl⟩ := List.mem_map.1 hx
    obtain ⟨j, _, hj⟩ := exists_left_of_forall₂ hargs hv
    exact unflagged_of_loadableWith (fun k b => ih) hj

end BootstrapTable

namespace Loadable

mutual

theorem within_unflagged {limits : Limits} (v : Loadable) (h : v.Within limits) :
    v.unflagged.Within limits := by
  cases v with
  | handle k =>
    rw [unflagged, Within, k.member_unflagged]
    rwa [Within] at h
  | dynamic name desc k args =>
    rw [Within] at h
    obtain ⟨hn, hd, hk, arity, all⟩ := h
    rw [unflagged, Within, k.member_unflagged]
    refine ⟨hn, hd, hk, ?_, allWithin_unflagged args all⟩
    rwa [unflaggedAll_eq, List.length_map]
  | _ =>
    rw [unflagged]
    · exact h
    all_goals nofun

theorem allWithin_unflagged {limits : Limits} (vs : List Loadable) (h : AllWithin limits vs) :
    AllWithin limits (unflaggedAll vs) := by
  cases vs with
  | nil => exact h
  | cons v vs =>
    rw [AllWithin] at h
    rw [unflaggedAll, AllWithin]
    exact ⟨within_unflagged v h.1, allWithin_unflagged vs h.2⟩

end

end Loadable

namespace Insn

@[simp] theorem targets_unflagged (i : Insn) : i.unflagged.targets = i.targets := by
  cases i <;> rfl

theorem unflagged_unflagged (i : Insn) : i.unflagged.unflagged = i.unflagged := by
  cases i with
  | callSite name desc b =>
    dsimp only [unflagged, Bootstrap.unflagged]
    rw [Handle.unflagged_unflagged, Loadable.unflaggedAll_unflaggedAll]
  | ldc v =>
    dsimp only [unflagged]
    rw [v.unflagged_unflagged]
  | _ => rfl

@[simp] theorem isExecuted_unflagged (i : Insn) : i.unflagged.isExecuted = i.isExecuted := by
  cases i <;> rfl

theorem size_unflagged (i : Insn) (pc : Nat) (index : Option UInt16) :
    i.unflagged.size pc index = i.size pc index := by
  cases i with
  | ldc v =>
    dsimp only [unflagged, size]
    rw [v.isWide_unflagged]
  | _ => rfl

theorem shaped_unflagged {i : Insn} (h : i.Shaped) : i.unflagged.Shaped := by
  cases i <;> exact h

theorem within_unflagged {limits : Limits} {i : Insn} (h : i.Within limits) :
    i.unflagged.Within limits := by
  cases i with
  | callSite name desc b =>
    obtain ⟨hn, hd, hb⟩ := h
    refine ⟨hn, hd, ?_, ?_, ?_⟩
    · rw [Bootstrap.unflagged, Handle.member_unflagged]
      exact hb.handle
    · rw [Bootstrap.unflagged, Loadable.unflaggedAll_eq, List.length_map]
      exact hb.arity
    · exact Loadable.allWithin_iff.1
        (Loadable.allWithin_unflagged _ (Loadable.allWithin_iff.2 hb.args))
  | ldc v => exact v.within_unflagged h
  | _ => exact h

end Insn

end ClassWeave
