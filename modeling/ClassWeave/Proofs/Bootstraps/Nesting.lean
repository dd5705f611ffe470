import Mathlib.Tactic.Common
import ClassWeave.Proofs.Bootstraps

/-!
# Dynamic constants within one another

A dynamic constant may have others among the arguments of its bootstrap method, and nothing in a
file keeps it from leading back to itself. A reader counts the arguments that it has stepped into
and gives up behind the sixteenth. What it resolves is then exactly what is complete and nowhere
nested deeper, so a constant that leads back to itself is never resolved.
-/

set_option autoImplicit false

namespace ClassWeave

/-- A place that resolving looks at: a constant in some role, or a bootstrap method. -/
inductive Referent where
  | constant (role : ConstantRole) (index : UInt16)
  | bootstrap (index : UInt16)
  deriving DecidableEq, Repr

def Constant.parts? : ConstantRole → Constant → Option (List Referent)
  | .utf8, .utf8 _ => some []
  | .className, .type name => some [.constant .utf8 name]
  | .nameAndType, .nameAndType name desc => some [.constant .utf8 name, .constant .utf8 desc]
  | .member, .field owner sig | .member, .method owner sig | .member, .interfaceMethod owner sig
  | .field, .field owner sig | .method, .method owner sig | .method, .interfaceMethod owner sig =>
    some [.constant .nameAndType sig, .constant .className owner]
  | .methodHandle, .methodHandle _ reference | .loadable, .methodHandle _ reference =>
    some [.constant .member reference]
  | .loadable, .integer _ | .loadable, .float _ | .loadable, .long _ | .loadable, .double _ =>
    some []
  | .loadable, .string text | .loadable, .type text | .loadable, .methodType text =>
    some [.constant .utf8 text]
  | .loadable, .dynamic entry sig | .callSite, .callSite entry sig =>
    some [.constant .nameAndType sig, .bootstrap entry]
  | _, _ => none

def Referent.Plain : Referent → Prop
  | .constant .loadable _ | .constant .callSite _ | .bootstrap _ => False
  | .constant _ _ => True

namespace BootstrapTable

section Reaching

variable (t : BootstrapTable) (p : Pool)

/-- One place points at another, across a number of bootstrap arguments: none or one. -/
inductive Part : Referent → Nat → Referent → Prop
  | constant {role : ConstantRole} {i : UInt16} {c : Constant} {parts : List Referent}
      {b : Referent} (found : p.get i = .ok c) (kind : c.parts? role = some parts)
      (mem : b ∈ parts) : Part (.constant role i) 0 b
  | handle {k : UInt16} {e : BootstrapEntry} (found : t.get? k.toNat = some e) :
      Part (.bootstrap k) 0 (.constant .methodHandle e.handle)
  | argument {k : UInt16} {e : BootstrapEntry} {i : UInt16} (found : t.get? k.toNat = some e)
      (mem : i ∈ e.args) : Part (.bootstrap k) 1 (.constant .loadable i)

/-- A chain of places from one to another, with the bootstrap arguments that it steps into. -/
inductive Leads : Referent → Nat → Referent → Prop
  | refl (a : Referent) : Leads a 0 a
  | step {a b c : Referent} {m n : Nat} (first : Part t p a m b) (rest : Leads b n c) :
      Leads a (m + n) c

def Present : Referent → Prop
  | .constant role i => ∃ c parts, p.get i = .ok c ∧ c.parts? role = some parts
  | .bootstrap k => ∃ e, t.get? k.toNat = some e

def Complete (a : Referent) : Prop := ∀ n b, Leads t p a n b → Present t p b

/-- No bootstrap method lies behind `levels` arguments or more. -/
def Shallow (levels : Nat) (a : Referent) : Prop := ∀ n k, Leads t p a n (.bootstrap k) → n < levels

end Reaching

variable {t : BootstrapTable} {p : Pool} {a b c : Referent} {levels m n : Nat}

theorem Leads.trans (first : Leads t p a m b) (second : Leads t p b n c) :
    Leads t p a (m + n) c := by
  induction first with
  | refl a => rwa [Nat.zero_add]
  | step part _ ih =>
    rw [Nat.add_assoc]
    exact .step part (ih second)

theorem Part.leads (h : Part t p a n b) : Leads t p a n b := .step h (.refl b)

/-! ## One place at a time -/

theorem complete_constant {role : ConstantRole} {i : UInt16} :
    Complete t p (.constant role i) ↔ ∃ c parts, p.get i = .ok c ∧ c.parts? role = some parts ∧
      ∀ b ∈ parts, Complete t p b := by
  constructor
  · intro complete
    obtain ⟨c, parts, found, kind⟩ := complete 0 _ (.refl _)
    exact ⟨c, parts, found, kind, fun b mem n d leads =>
      complete _ d (.step (.constant found kind mem) leads)⟩
  · rintro ⟨c, parts, found, kind, each⟩ n b leads
    cases leads with
    | refl => exact ⟨c, parts, found, kind⟩
    | step first rest =>
      cases first with
      | constant found' kind' mem =>
        cases found.symm.trans found'
        cases kind.symm.trans kind'
        exact each _ mem _ b rest

theorem complete_bootstrap {k : UInt16} :
    Complete t p (.bootstrap k) ↔ ∃ e, t.get? k.toNat = some e ∧
      Complete t p (.constant .methodHandle e.handle) ∧
      ∀ i ∈ e.args, Complete t p (.constant .loadable i) := by
  constructor
  · intro complete
    obtain ⟨e, found⟩ := complete 0 _ (.refl _)
    exact ⟨e, found, fun n b leads => complete _ b (.step (.handle found) leads),
      fun i mem n b leads => complete _ b (.step (.argument found mem) leads)⟩
  · rintro ⟨e, found, handle, args⟩ n b leads
    cases leads with
    | refl => exact ⟨e, found⟩
    | step first rest =>
      cases first with
      | handle found' =>
        cases found.symm.trans found'
        exact handle _ b rest
      | argument found' mem =>
        cases found.symm.trans found'
        exact args _ mem _ b rest

theorem shallow_constant {role : ConstantRole} {i : UInt16} {c : Constant}
    {parts : List Referent} (found : p.get i = .ok c) (kind : c.parts? role = some parts) :
    Shallow t p levels (.constant role i) ↔ ∀ b ∈ parts, Shallow t p levels b := by
  constructor
  · intro shallow b mem n k leads
    have below := shallow _ k (.step (.constant found kind mem) leads)
    omega
  · intro each n k leads
    cases leads with
    | step first rest =>
      cases first with
      | constant found' kind' mem =>
        cases found.symm.trans found'
        cases kind.symm.trans kind'
        have below := each _ mem _ k rest
        omega

theorem shallow_bootstrap {k : UInt16} {e : BootstrapEntry} (found : t.get? k.toNat = some e) :
    Shallow t p (levels + 1) (.bootstrap k) ↔
      Shallow t p (levels + 1) (.constant .methodHandle e.handle) ∧
        ∀ i ∈ e.args, Shallow t p levels (.constant .loadable i) := by
  constructor
  · intro shallow
    refine ⟨fun n j leads => ?_, fun i mem n j leads => ?_⟩
    · have below := shallow _ j (.step (.handle found) leads)
      omega
    · have below := shallow _ j (.step (.argument found mem) leads)
      omega
  · rintro ⟨handle, args⟩ n j leads
    cases leads with
    | refl => exact Nat.succ_pos levels
    | step first rest =>
      cases first with
      | handle found' =>
        cases found.symm.trans found'
        have below := handle _ j rest
        omega
      | argument found' mem =>
        cases found.symm.trans found'
        have below := args _ mem _ j rest
        omega

theorem not_shallow_zero (k : UInt16) : ¬Shallow t p 0 (.bootstrap k) := fun shallow =>
  absurd (shallow 0 k (.refl _)) (Nat.lt_irrefl 0)

/-! ## Texts, references and handles

These point at one another but never at a bootstrap method, and are resolved without counting. -/

theorem Part.plain (h : Part t p a n b) (plain : a.Plain) : b.Plain := by
  cases h with
  | @constant role i c parts b found kind mem =>
    unfold Constant.parts? at kind
    split at kind <;> cases kind <;> simp_all [Referent.Plain]
    all_goals rcases mem with rfl | rfl <;> trivial
  | handle => exact plain.elim
  | argument => exact plain.elim

theorem Leads.plain (h : Leads t p a n b) (plain : a.Plain) : b.Plain := by
  induction h with
  | refl a => exact plain
  | step first _ ih => exact ih (first.plain plain)

theorem shallow_of_plain (plain : a.Plain) : Shallow t p levels a := fun _ _ leads =>
  (leads.plain plain).elim

theorem complete_utf8 {i : UInt16} :
    Complete t p (.constant .utf8 i) ↔ ∃ text, p.utf8 i = .ok text := by
  rw [complete_constant]
  constructor
  · rintro ⟨c, parts, found, kind, -⟩
    cases c <;> cases kind
    exact ⟨_, Pool.utf8_eq_ok.2 found⟩
  · rintro ⟨text, h⟩
    exact ⟨_, [], Pool.utf8_eq_ok.1 h, rfl, by simp⟩

theorem complete_className {i : UInt16} :
    Complete t p (.constant .className i) ↔ ∃ name, p.className i = .ok name := by
  rw [complete_constant]
  constructor
  · rintro ⟨c, parts, found, kind, each⟩
    cases c <;> cases kind
    obtain ⟨name, h⟩ := complete_utf8.1 (each _ (List.mem_singleton_self _))
    exact ⟨name, Pool.className_eq_ok.2 ⟨_, found, h⟩⟩
  · rintro ⟨name, h⟩
    obtain ⟨j, found, h⟩ := Pool.className_eq_ok.1 h
    exact ⟨_, _, found, rfl, List.forall_mem_singleton.2 (complete_utf8.2 ⟨name, h⟩)⟩

theorem complete_nameAndType {i : UInt16} :
    Complete t p (.constant .nameAndType i) ↔ ∃ name desc, p.nameAndType i = .ok (name, desc) := by
  rw [complete_constant]
  constructor
  · rintro ⟨c, parts, found, kind, each⟩
    cases c <;> cases kind
    rw [List.forall_mem_cons, List.forall_mem_singleton, complete_utf8, complete_utf8] at each
    obtain ⟨⟨name, hn⟩, desc, hd⟩ := each
    exact ⟨name, desc, Pool.nameAndType_eq_ok.2 ⟨_, _, found, hn, hd⟩⟩
  · rintro ⟨name, desc, h⟩
    obtain ⟨j, k, found, hn, hd⟩ := Pool.nameAndType_eq_ok.1 h
    refine ⟨_, _, found, rfl, ?_⟩
    rw [List.forall_mem_cons, List.forall_mem_singleton, complete_utf8, complete_utf8]
    exact ⟨⟨name, hn⟩, desc, hd⟩

theorem complete_member {i : UInt16} :
    Complete t p (.constant .member i) ↔ ∃ kind m, p.member i = .ok (kind, m) := by
  rw [complete_constant]
  constructor
  · rintro ⟨c, parts, found, kind, each⟩
    cases c <;> cases kind
    all_goals
      rw [List.forall_mem_cons, List.forall_mem_singleton, complete_nameAndType,
        complete_className] at each
      obtain ⟨⟨name, desc, hn⟩, owner, ho⟩ := each
    · exact ⟨.field, ⟨owner, name, desc⟩, Pool.member_eq_ok.2 ⟨_, _, found, hn, ho⟩⟩
    · exact ⟨.method, ⟨owner, name, desc⟩, Pool.member_eq_ok.2 ⟨_, _, found, hn, ho⟩⟩
    · exact ⟨.interfaceMethod, ⟨owner, name, desc⟩, Pool.member_eq_ok.2 ⟨_, _, found, hn, ho⟩⟩
  · rintro ⟨kind, m, h⟩
    obtain ⟨j, k, found, hn, ho⟩ := Pool.member_eq_ok.1 h
    refine ⟨_, [.constant .nameAndType k, .constant .className j], found, by cases kind <;> rfl, ?_⟩
    rw [List.forall_mem_cons, List.forall_mem_singleton, complete_nameAndType, complete_className]
    exact ⟨⟨_, _, hn⟩, _, ho⟩

theorem complete_handle {i : UInt16} :
    Complete t p (.constant .methodHandle i) ↔ ∃ h, p.handle i = .ok h := by
  rw [complete_constant]
  constructor
  · rintro ⟨c, parts, found, kind, each⟩
    cases c <;> cases kind
    obtain ⟨memberKind, m, hm⟩ := complete_member.1 (List.forall_mem_singleton.1 each)
    exact ⟨⟨_, m, memberKind == .interfaceMethod⟩, Pool.handle_eq_ok.2 ⟨_, _, found, hm, rfl⟩⟩
  · rintro ⟨h, found⟩
    obtain ⟨j, kind, found, hm, -⟩ := Pool.handle_eq_ok.1 found
    exact ⟨_, _, found, rfl, List.forall_mem_singleton.2 (complete_member.2 ⟨kind, _, hm⟩)⟩

/-! ## Loadable constants and bootstrap methods

A dynamic constant hands on to its bootstrap method at the same depth, the bootstrap method to its
arguments one deeper. -/

structure Sound (t : BootstrapTable) (p : Pool) (levels : Nat) (a : Referent) : Prop where
  complete : Complete t p a
  shallow : Shallow t p levels a

theorem Complete.sound (complete : Complete t p a) (plain : a.Plain) : Sound t p levels a :=
  ⟨complete, shallow_of_plain plain⟩

theorem sound_constant {role : ConstantRole} {i : UInt16} {c : Constant} (found : p.get i = .ok c) :
    Sound t p levels (.constant role i) ↔
      ∃ parts, c.parts? role = some parts ∧ ∀ b ∈ parts, Sound t p levels b := by
  constructor
  · rintro ⟨complete, shallow⟩
    obtain ⟨c', parts, found', kind, each⟩ := complete_constant.1 complete
    cases found.symm.trans found'
    have shallows := (shallow_constant found kind).1 shallow
    exact ⟨parts, kind, fun b mem => ⟨each b mem, shallows b mem⟩⟩
  · rintro ⟨parts, kind, each⟩
    exact ⟨complete_constant.2 ⟨c, parts, found, kind, fun b mem => (each b mem).complete⟩,
      (shallow_constant found kind).2 fun b mem => (each b mem).shallow⟩

theorem sound_bootstrap {k : UInt16} {e : BootstrapEntry} (found : t.get? k.toNat = some e) :
    Sound t p (levels + 1) (.bootstrap k) ↔ Complete t p (.constant .methodHandle e.handle) ∧
      ∀ i ∈ e.args, Sound t p levels (.constant .loadable i) := by
  constructor
  · rintro ⟨complete, shallow⟩
    obtain ⟨e', found', handle, args⟩ := complete_bootstrap.1 complete
    cases found.symm.trans found'
    obtain ⟨-, shallows⟩ := (shallow_bootstrap found).1 shallow
    exact ⟨handle, fun i mem => ⟨args i mem, shallows i mem⟩⟩
  · rintro ⟨handle, args⟩
    exact ⟨complete_bootstrap.2 ⟨e, found, handle, fun i mem => (args i mem).complete⟩,
      (shallow_bootstrap found).2 ⟨shallow_of_plain trivial, fun i mem => (args i mem).shallow⟩⟩

theorem exists_loadableWith {resolve : UInt16 → Except FormatError Bootstrap}
    (nested : ∀ k, (∃ b, resolve k = .ok b) ↔ Sound t p levels (.bootstrap k)) (i : UInt16) :
    (∃ v, loadableWith p resolve i = .ok v) ↔ Sound t p levels (.constant .loadable i) := by
  unfold loadableWith
  rw [exists_ok_bind]
  constructor
  · rintro ⟨c, found, v, h⟩
    rw [sound_constant found]
    cases c with
    | integer | float | long | double => exact ⟨[], rfl, by simp⟩
    | string j | type j | methodType j =>
      obtain ⟨text, ht, -⟩ := bind_ok_iff.1 h
      exact ⟨_, rfl, List.forall_mem_singleton.2 ((complete_utf8.2 ⟨text, ht⟩).sound trivial)⟩
    | methodHandle kind j =>
      obtain ⟨handle, hh, -⟩ := bind_ok_iff.1 h
      have sound : Sound t p levels (.constant .methodHandle i) :=
        (complete_handle.2 ⟨handle, hh⟩).sound trivial
      obtain ⟨parts, kind, each⟩ := (sound_constant found).1 sound
      exact ⟨parts, kind, each⟩
    | dynamic entry sig =>
      obtain ⟨⟨name, desc⟩, hn, h⟩ := bind_ok_iff.1 h
      obtain ⟨b, hb, -⟩ := bind_ok_iff.1 h
      refine ⟨_, rfl, List.forall_mem_cons.2 ⟨?_, List.forall_mem_singleton.2 ?_⟩⟩
      · exact (complete_nameAndType.2 ⟨name, desc, hn⟩).sound trivial
      · exact (nested entry).1 ⟨b, hb⟩
    | _ => cases h
  · intro sound
    obtain ⟨c, -, found, -⟩ := sound.complete 0 _ (.refl _)
    obtain ⟨parts, kind, each⟩ := (sound_constant found).1 sound
    refine ⟨c, found, ?_⟩
    cases c with
    | integer | float | long | double => exact ⟨_, rfl⟩
    | string j | type j | methodType j =>
      cases kind
      obtain ⟨text, ht⟩ := complete_utf8.1 (List.forall_mem_singleton.1 each).complete
      exact ⟨_, bind_ok_iff.2 ⟨text, ht, rfl⟩⟩
    | methodHandle tag j =>
      have handle : Sound t p levels (.constant .methodHandle i) :=
        (sound_constant found).2 ⟨_, kind, each⟩
      obtain ⟨h, hh⟩ := complete_handle.1 handle.complete
      exact ⟨_, bind_ok_iff.2 ⟨h, hh, rfl⟩⟩
    | dynamic entry sig =>
      cases kind
      rw [List.forall_mem_cons, List.forall_mem_singleton] at each
      obtain ⟨name, desc, hn⟩ := complete_nameAndType.1 each.1.complete
      obtain ⟨b, hb⟩ := (nested entry).2 each.2
      exact ⟨_, bind_ok_iff.2 ⟨_, hn, bind_ok_iff.2 ⟨b, hb, rfl⟩⟩⟩
    | _ => cases kind

theorem exists_bootstrapAt (levels : Nat) (k : UInt16) :
    (∃ b, bootstrapAt t p levels k = .ok b) ↔ Sound t p levels (.bootstrap k) := by
  induction levels generalizing k with
  | zero =>
    constructor
    · rintro ⟨b, h⟩
      cases h
    · intro sound
      exact (not_shallow_zero k sound.shallow).elim
  | succ levels ih =>
    unfold bootstrapAt
    cases found : t.get? k.toNat with
    | none =>
      constructor
      · rintro ⟨b, h⟩
        cases h
      · intro sound
        obtain ⟨e, found'⟩ := sound.complete 0 _ (.refl _)
        cases found.symm.trans found'
    | some e =>
      rw [sound_bootstrap found, complete_handle]
      show (∃ b, (e.args.mapM (loadableWith p (bootstrapAt t p levels)) >>= _) = .ok b) ↔ _
      constructor
      · rintro ⟨b, h⟩
        obtain ⟨args, hargs, h⟩ := bind_ok_iff.1 h
        obtain ⟨handle, hh, -⟩ := bind_ok_iff.1 h
        refine ⟨⟨handle, hh⟩, fun i mem => ?_⟩
        obtain ⟨v, -, hv⟩ := exists_right_of_forall₂ (mapM_ok_iff.1 hargs) mem
        exact (exists_loadableWith ih i).1 ⟨v, hv⟩
      · rintro ⟨⟨handle, hh⟩, each⟩
        obtain ⟨args, hargs⟩ := mapM_ok fun i mem => (exists_loadableWith ih i).2 (each i mem)
        exact ⟨_, bind_ok_iff.2 ⟨args, hargs, bind_ok_iff.2 ⟨handle, hh, rfl⟩⟩⟩

theorem exists_callSite (i : UInt16) : (∃ x, callSite t p i = .ok x) ↔
    Sound t p (nestingLimit + 1) (.constant .callSite i) := by
  unfold callSite
  rw [exists_ok_bind]
  constructor
  · rintro ⟨c, found, x, h⟩
    rw [sound_constant found]
    cases c with
    | callSite entry sig =>
      obtain ⟨⟨name, desc⟩, hn, h⟩ := bind_ok_iff.1 h
      obtain ⟨b, hb, -⟩ := bind_ok_iff.1 h
      refine ⟨_, rfl, List.forall_mem_cons.2 ⟨?_, List.forall_mem_singleton.2 ?_⟩⟩
      · exact (complete_nameAndType.2 ⟨name, desc, hn⟩).sound trivial
      · exact (exists_bootstrapAt _ entry).1 ⟨b, hb⟩
    | _ => cases h
  · intro sound
    obtain ⟨c, -, found, -⟩ := sound.complete 0 _ (.refl _)
    obtain ⟨parts, kind, each⟩ := (sound_constant found).1 sound
    refine ⟨c, found, ?_⟩
    cases c <;> cases kind
    rw [List.forall_mem_cons, List.forall_mem_singleton] at each
    obtain ⟨name, desc, hn⟩ := complete_nameAndType.1 each.1.complete
    obtain ⟨b, hb⟩ := (exists_bootstrapAt _ _).2 each.2
    exact ⟨_, bind_ok_iff.2 ⟨_, hn, bind_ok_iff.2 ⟨b, hb, rfl⟩⟩⟩

/-! ## Why a reader gives up -/

def tooDeep : FormatError := .badAttribute (.nestedTooDeep nestingLimit)

theorem blamesOnly_loadableWith {resolve : UInt16 → Except FormatError Bootstrap}
    (nested : ∀ k, Complete t p (.bootstrap k) → BlamesOnly (· = tooDeep) (resolve k)) {i : UInt16}
    (complete : Complete t p (.constant .loadable i)) :
    BlamesOnly (· = tooDeep) (loadableWith p resolve i) := by
  obtain ⟨c, parts, found, kind, each⟩ := complete_constant.1 complete
  refine .bind (.of_exists_ok ⟨c, found⟩) fun c' found' => ?_
  cases found.symm.trans found'
  cases c with
  | integer | float | long | double => exact .ok
  | string j | type j | methodType j =>
    cases kind
    have text := complete_utf8.1 (List.forall_mem_singleton.1 each)
    exact .bind (.of_exists_ok text) fun _ _ => .ok
  | methodHandle tag j =>
    have handle : Complete t p (.constant .methodHandle i) :=
      complete_constant.2 ⟨_, _, found, kind, each⟩
    exact .bind (.of_exists_ok (complete_handle.1 handle)) fun _ _ => .ok
  | dynamic entry sig =>
    cases kind
    rw [List.forall_mem_cons, List.forall_mem_singleton] at each
    obtain ⟨name, desc, named⟩ := complete_nameAndType.1 each.1
    exact .bind (.of_exists_ok ⟨_, named⟩) fun _ _ => .bind (nested entry each.2) fun _ _ => .ok
  | _ => cases kind

theorem blamesOnly_bootstrapAt {k : UInt16} (complete : Complete t p (.bootstrap k)) :
    BlamesOnly (· = tooDeep) (bootstrapAt t p levels k) := by
  induction levels generalizing k with
  | zero => exact .error rfl
  | succ levels ih =>
    obtain ⟨entry, found, handle, args⟩ := complete_bootstrap.1 complete
    rw [bootstrapAt, found]
    refine .bind (.mapM fun i mem => blamesOnly_loadableWith (fun k => ih) (args i mem)) ?_
    exact fun _ _ => .bind (.of_exists_ok (complete_handle.1 handle)) fun _ _ => .ok

theorem blamesOnly_callSite {i : UInt16} (complete : Complete t p (.constant .callSite i)) :
    BlamesOnly (· = tooDeep) (callSite t p i) := by
  obtain ⟨c, parts, found, kind, each⟩ := complete_constant.1 complete
  refine .bind (.of_exists_ok ⟨c, found⟩) fun c' found' => ?_
  cases found.symm.trans found'
  cases c <;> cases kind
  rw [List.forall_mem_cons, List.forall_mem_singleton] at each
  obtain ⟨name, desc, named⟩ := complete_nameAndType.1 each.1
  refine .bind (.of_exists_ok ⟨_, named⟩) fun _ _ => ?_
  exact .bind (blamesOnly_bootstrapAt each.2) fun _ _ => .ok

/-! ## Chains and circles

A chain is as long as the number of arguments that it steps into. From a dynamic constant it passes
one constant more than that, the first included; from a call site it passes that many. -/

def Dynamic (p : Pool) (i : UInt16) : Prop := ∃ entry sig, p.get i = .ok (.dynamic entry sig)

theorem Leads.last (h : Leads t p a n c) :
    n = 0 ∧ a = c ∨ ∃ m b w, Leads t p a m b ∧ Part t p b w c ∧ n = m + w := by
  induction h with
  | refl a => exact .inl ⟨rfl, rfl⟩
  | @step a b c w n first _ ih =>
    rcases ih with ⟨rfl, rfl⟩ | ⟨m, d, w', leads, last, rfl⟩
    · exact .inr ⟨0, a, w, .refl a, first, Nat.add_comm ..⟩
    · exact .inr ⟨w + m, d, w', .step first leads, last, (Nat.add_assoc ..).symm⟩

theorem Part.to_bootstrap {k : UInt16} (h : Part t p a n (.bootstrap k)) :
    n = 0 ∧ ((∃ i, a = .constant .loadable i ∧ Dynamic p i) ∨ ∃ i, a = .constant .callSite i) := by
  cases h with
  | @constant role i c parts _ found kind mem =>
    refine ⟨rfl, ?_⟩
    unfold Constant.parts? at kind
    split at kind <;> cases kind <;> simp at mem
    · exact .inl ⟨i, rfl, _, _, found⟩
    · exact .inr ⟨i, rfl⟩

theorem Part.ne_callSite {i : UInt16} (h : Part t p a n b) : b ≠ .constant .callSite i := by
  cases h with
  | @constant role i c parts _ found kind mem =>
    rintro rfl
    unfold Constant.parts? at kind
    split at kind <;> cases kind <;> simp at mem
  | handle => nofun
  | argument => nofun

theorem shallow_iff {role : ConstantRole} {i : UInt16} :
    Shallow t p (levels + 1) (.constant role i) ↔
      ∀ n j, Leads t p (.constant role i) n (.constant .loadable j) → Dynamic p j → n ≤ levels := by
  constructor
  · rintro shallow n j leads ⟨entry, sig, found⟩
    have part : Part t p (.constant .loadable j) 0 (.bootstrap entry) :=
      .constant found rfl (List.mem_cons_of_mem _ (List.mem_singleton_self _))
    exact Nat.le_of_lt_succ (shallow n entry (leads.trans part.leads))
  · intro chains n k leads
    rcases leads.last with ⟨-, other⟩ | ⟨m, b, w, leads, part, rfl⟩
    · cases other
    obtain ⟨rfl, ⟨j, rfl, dynamic⟩ | ⟨j, rfl⟩⟩ := part.to_bootstrap
    · exact Nat.lt_succ_of_le (chains m j leads dynamic)
    · rcases leads.last with ⟨rfl, -⟩ | ⟨_, _, _, -, last, -⟩
      · exact Nat.succ_pos levels
      · exact (last.ne_callSite rfl).elim

theorem Leads.around (circle : Leads t p a m a) (times : Nat) : Leads t p a (times * m) a := by
  induction times with
  | zero =>
    rw [Nat.zero_mul]
    exact .refl a
  | succ times ih =>
    rw [Nat.succ_mul]
    exact ih.trans circle

theorem Leads.exists_bootstrap (h : Leads t p a n b) (moved : 0 < n) :
    ∃ m k, Leads t p a m (.bootstrap k) := by
  induction h with
  | refl a => exact (Nat.lt_irrefl 0 moved).elim
  | @step a b c w n first _ ih =>
    cases first with
    | constant found kind mem =>
      obtain ⟨m, k, leads⟩ := ih (by omega)
      exact ⟨0 + m, k, .step (.constant found kind mem) leads⟩
    | handle => exact ⟨0, _, .refl _⟩
    | argument => exact ⟨0, _, .refl _⟩

theorem not_shallow_of_circle (reached : Leads t p a n b) (circle : Leads t p b m b)
    (moved : 0 < m) : ¬Shallow t p levels a := by
  intro shallow
  obtain ⟨d, k, leads⟩ := circle.exists_bootstrap moved
  have below := shallow _ k (reached.trans ((circle.around levels).trans leads))
  have far : levels ≤ levels * m := Nat.le_mul_of_pos_right levels moved
  omega

end BootstrapTable

/-! ## How deep a value nests -/

mutual

def Loadable.levels : Loadable → Nat
  | .dynamic _ _ _ args => Loadable.levelsOf args + 1
  | _ => 0

def Loadable.levelsOf : List Loadable → Nat
  | [] => 0
  | v :: vs => max v.levels (Loadable.levelsOf vs)

end

/-- How deep dynamic constants stand in the arguments. -/
def Bootstrap.nesting (b : Bootstrap) : Nat := Loadable.levelsOf b.args

def Loadable.nesting : Loadable → Nat
  | .dynamic _ _ h args => Bootstrap.nesting ⟨h, args⟩
  | _ => 0

theorem Loadable.levelsOf_le {limit : Nat} {vs : List Loadable}
    (each : ∀ v ∈ vs, v.levels ≤ limit) : levelsOf vs ≤ limit := by
  induction vs with
  | nil => exact Nat.zero_le limit
  | cons v vs ih =>
    rw [List.forall_mem_cons] at each
    exact Nat.max_le.2 ⟨each.1, ih each.2⟩

theorem Loadable.nesting_le {limit : Nat} {v : Loadable} (h : v.levels ≤ limit + 1) :
    v.nesting ≤ limit := by
  cases v with
  | dynamic => exact Nat.le_of_succ_le_succ h
  | _ => exact Nat.zero_le limit

namespace BootstrapTable

variable {t : BootstrapTable} {p : Pool} {levels : Nat}

theorem levels_of_loadableWith {resolve : UInt16 → Except FormatError Bootstrap}
    (nested : ∀ k b, resolve k = .ok b → b.nesting < levels) {i : UInt16} {v : Loadable}
    (h : loadableWith p resolve i = .ok v) : v.levels ≤ levels := by
  rcases loadableWith_cases h with ⟨n, rfl⟩ | ⟨n, rfl⟩ | ⟨n, rfl⟩ | ⟨n, rfl⟩ |
    ⟨text, j, ht, rfl | rfl | rfl⟩ | ⟨handle, hh, rfl⟩ | ⟨name, desc, j, k, b, hn, hb, rfl⟩
  case inr.inr.inr.inr.inr.inr =>
    rw [Loadable.levels]
    exact nested k b hb
  all_goals exact Nat.zero_le levels

theorem nesting_of_bootstrapAt {k : UInt16} {b : Bootstrap}
    (h : bootstrapAt t p levels k = .ok b) : b.nesting < levels := by
  induction levels generalizing k b with
  | zero => cases h
  | succ levels ih =>
    obtain ⟨n, entry, same, -, -, args⟩ := bootstrapAt_cases h
    cases same
    refine Nat.lt_succ_of_le (Loadable.levelsOf_le fun v mem => ?_)
    obtain ⟨i, -, hv⟩ := exists_left_of_forall₂ args mem
    exact levels_of_loadableWith (fun k b => ih) hv

/-! ## Counting upwards -/

variable (t p) in
/-- The bootstrap method at `index`, `depth` arguments deep. -/
def bootstrapFrom (depth : Nat) (index : UInt16) : Except FormatError Bootstrap :=
  if nestingLimit < depth then .error tooDeep else
    match t.get? index.toNat with
    | none => .error (.badAttribute (.noBootstrap index))
    | some entry => do
      let args ← entry.args.mapM (loadableWith p (bootstrapFrom (depth + 1)))
      let handle ← p.handle entry.handle
      return ⟨handle, args⟩
termination_by nestingLimit + 1 - depth

theorem bootstrapFrom_eq (depth : Nat) :
    bootstrapFrom t p depth = bootstrapAt t p (nestingLimit + 1 - depth) := by
  generalize left : nestingLimit + 1 - depth = levels
  induction levels generalizing depth with
  | zero =>
    funext k
    rw [bootstrapFrom, if_pos (by omega)]
    rfl
  | succ levels ih =>
    funext k
    rw [bootstrapFrom, if_neg (by omega), bootstrapAt, ih (depth + 1) (by omega)]
    rfl

/-- What a reader that starts at `start` answers, for all tables and pools. -/
structure Bounded (t : BootstrapTable) (p : Pool) (start : Referent) {α : Type}
    (answer : Except FormatError α) (within : α → Prop) : Prop where
  /-- It answers where everything is present and no chain of dynamic constants is too long. -/
  ok_iff : (∃ v, answer = .ok v) ↔ Complete t p start ∧
    ∀ n i, Leads t p start n (.constant .loadable i) → Dynamic p i → n ≤ nestingLimit
  within : ∀ v, answer = .ok v → within v
  too_long : ∀ n i, Leads t p start n (.constant .loadable i) → Dynamic p i →
    nestingLimit < n → ∃ e, answer = .error e
  circular : ∀ n m i, Leads t p start n (.constant .loadable i) → Dynamic p i →
    Leads t p (.constant .loadable i) m (.constant .loadable i) → 0 < m → ∃ e, answer = .error e
  reason : Complete t p start → BlamesOnly (· = tooDeep) answer

theorem Bounded.of_sound {role : ConstantRole} {i : UInt16} {α : Type}
    {answer : Except FormatError α} {within : α → Prop}
    (sound : (∃ v, answer = .ok v) ↔ Sound t p (nestingLimit + 1) (.constant role i))
    (keeps : ∀ v, answer = .ok v → within v)
    (reason : Complete t p (.constant role i) → BlamesOnly (· = tooDeep) answer) :
    Bounded t p (.constant role i) answer within := by
  have refused : ¬Sound t p (nestingLimit + 1) (.constant role i) → ∃ e, answer = .error e := by
    intro unsound
    cases answer with
    | error e => exact ⟨e, rfl⟩
    | ok v => exact (unsound (sound.1 ⟨v, rfl⟩)).elim
  refine ⟨?_, keeps, fun n j leads dynamic long => refused fun sound => ?_,
    fun n m j leads dynamic circle moved => refused fun sound => ?_, reason⟩
  · rw [sound, ← shallow_iff]
    exact ⟨fun h => ⟨h.complete, h.shallow⟩, fun h => ⟨h.1, h.2⟩⟩
  · exact absurd (shallow_iff.1 sound.shallow n j leads dynamic) (Nat.not_le.2 long)
  · exact not_shallow_of_circle leads circle moved sound.shallow

/-- Loadable constants and call sites resolve exactly where they are complete and nest within the
limit, circles or not. -/
theorem resolution_bounded (t : BootstrapTable) (p : Pool) (i : UInt16) :
    Bounded t p (.constant .loadable i) (loadable t p i) (fun v => v.nesting ≤ nestingLimit) ∧
      Bounded t p (.constant .callSite i) (callSite t p i) (fun x =>
        ∃ name desc b, x = .callSite name desc b ∧ b.nesting ≤ nestingLimit) ∧
      bootstrap t p = bootstrapFrom t p 0 := by
  refine ⟨.of_sound ?_ ?_ ?_, .of_sound (exists_callSite i) ?_ blamesOnly_callSite,
    (bootstrapFrom_eq 0).symm⟩
  · exact exists_loadableWith (exists_bootstrapAt (nestingLimit + 1)) i
  · intro v h
    exact Loadable.nesting_le (levels_of_loadableWith (fun k b => nesting_of_bootstrapAt) h)
  · exact blamesOnly_loadableWith fun k => blamesOnly_bootstrapAt
  · intro x h
    obtain ⟨c, found, h⟩ := bind_ok_iff.1 h
    cases c <;> try cases h
    obtain ⟨⟨name, desc⟩, hn, h⟩ := bind_ok_iff.1 h
    obtain ⟨b, hb, h⟩ := bind_ok_iff.1 h
    cases h
    exact ⟨name, desc, b, rfl, Nat.le_of_lt_succ (nesting_of_bootstrapAt hb)⟩

/-- Dynamic constants from slot 8 on, each with the next as its argument, and the last with itself
if they go round. The slot behind them holds a call site with the bootstrap method of the first. -/
def chained (count : Nat) (round : Bool) : Tables :=
  let parts : List Constant := [.utf8 "B", .type 1, .utf8 "b", .utf8 "()I", .nameAndType 3 4,
    .method 2 5, .methodHandle 6 6]
  let constants := (List.range count).map fun i => Constant.dynamic (UInt16.ofNat i) 5
  let entries := (List.range count).map fun i =>
    if i + 1 < count then ⟨7, [UInt16.ofNat (i + 9)]⟩
    else ⟨7, if round then [UInt16.ofNat (i + 8)] else []⟩
  ⟨(parts ++ constants ++ [Constant.callSite 0 5]).foldl Pool.append Pool.empty, ofEntries entries⟩

example : (loadable (chained 17 false).bootstraps (chained 17 false).pool 8).isOk ∧
    ¬(loadable (chained 18 false).bootstraps (chained 18 false).pool 8).isOk ∧
    (callSite (chained 17 false).bootstraps (chained 17 false).pool 25).isOk ∧
    ¬(callSite (chained 18 false).bootstraps (chained 18 false).pool 26).isOk ∧
    ¬(loadable (chained 1 true).bootstraps (chained 1 true).pool 8).isOk := by
  decide +kernel

end BootstrapTable

end ClassWeave
