import Mathlib.Data.List.Perm.Subperm
import ClassWeave.Proofs.Distinct
import ClassWeave.Proofs.Outline

/-!
# What comes along with a copied method

The methods to copy stand in a list that grows while it is worked off. It ends as the closure of
what was asked for under handles at synthetic methods of the source, and each method of the closure
is copied once.
-/

set_option autoImplicit false

namespace ClassWeave

/-! Where a method handle can stand. -/

inductive Loadable.Holds : Loadable → Handle → Prop
  | handle (h : Handle) : Holds (.handle h) h
  | bootstrap (name desc : String) (h : Handle) (args : List Loadable) :
    Holds (.dynamic name desc h args) h
  | argument {name desc : String} {h h' : Handle} {args : List Loadable} {value : Loadable}
    (mem : value ∈ args) (held : Holds value h') : Holds (.dynamic name desc h args) h'

inductive Insn.Holds : Insn → Handle → Prop
  | constant {value : Loadable} {h : Handle} (held : value.Holds h) : Holds (.ldc value) h
  | bootstrap (name desc : String) (b : Bootstrap) : Holds (.callSite name desc b) b.handle
  | argument {name desc : String} {b : Bootstrap} {h : Handle} {value : Loadable}
    (mem : value ∈ b.args) (held : value.Holds h) : Holds (.callSite name desc b) h

def Method.Holds (m : Method) (h : Handle) : Prop :=
  ∃ code, m.code = some code ∧ ∃ insn ∈ code.insns, insn.Holds h

theorem Loadable.mem_handlesOf {values : List Loadable} {h : Handle} :
    h ∈ handlesOf values ↔ ∃ value ∈ values, h ∈ value.handles := by
  induction values with
  | nil => simp [handlesOf]
  | cons value rest ih => rw [handlesOf, List.mem_append, ih, List.exists_mem_cons_iff]

theorem Loadable.Holds.mem_handles {value : Loadable} {h : Handle} (held : value.Holds h) :
    h ∈ value.handles := by
  induction held with
  | handle h => exact List.mem_singleton_self h
  | bootstrap name desc h args => exact List.mem_cons_self
  | argument mem _ ih => exact List.mem_cons_of_mem _ (mem_handlesOf.2 ⟨_, mem, ih⟩)

theorem Loadable.holds_of_mem_handles {h : Handle} : ∀ {value : Loadable}, h ∈ value.handles →
    value.Holds h
  | .handle h', mem => List.mem_singleton.1 mem ▸ .handle h
  | .dynamic name desc h' args, mem => by
    rcases List.mem_cons.1 mem with rfl | mem
    · exact .bootstrap name desc h args
    · obtain ⟨value, inside, mem⟩ := mem_handlesOf.1 mem
      exact .argument inside (holds_of_mem_handles mem)
  | .int _, mem | .float _, mem | .long _, mem | .double _, mem | .string _, mem | .type _, mem
  | .methodType _, mem => by simp [handles] at mem

theorem Insn.mem_handles_iff {insn : Insn} {h : Handle} : h ∈ insn.handles ↔ insn.Holds h := by
  constructor
  · intro mem
    cases insn with
    | ldc value => exact .constant (Loadable.holds_of_mem_handles mem)
    | callSite name desc b =>
      rcases List.mem_cons.1 mem with rfl | mem
      · exact .bootstrap name desc b
      · obtain ⟨value, inside, mem⟩ := Loadable.mem_handlesOf.1 mem
        exact .argument inside (Loadable.holds_of_mem_handles mem)
    | _ => cases mem
  · intro held
    cases held with
    | constant held => exact held.mem_handles
    | bootstrap name desc b => exact List.mem_cons_self
    | argument mem held =>
      exact List.mem_cons_of_mem _ (Loadable.mem_handlesOf.2 ⟨_, mem, held.mem_handles⟩)

namespace Edit

variable {source c c' : ClassFile} {r : Renaming} {methods : List (String × String)}
  {s t : String × String} {m : Method}

/-- The handle is at a synthetic method of the source. -/
structure LambdaOf (source : ClassFile) (lambda : Method) (h : Handle) : Prop where
  method : h.isField = false
  owner : h.member.owner = source.name
  found : source.method? h.member.name h.member.desc = some lambda
  synthetic : lambda.access.has Access.syntheticBit = true

theorem LambdaOf.signature {lambda : Method} {h : Handle} (of : LambdaOf source lambda h) :
    lambda.name = h.member.name ∧ lambda.desc = h.member.desc :=
  method?_signature of.found

def PointsAt (source : ClassFile) (m : Method) (s : String × String) : Prop :=
  ∃ h lambda, m.Holds h ∧ LambdaOf source lambda h ∧ lambda.signature = s

theorem mem_lambdaBodies : s ∈ lambdaBodies source m ↔ PointsAt source m s := by
  have holds {h : Handle} {code : Code} : h ∈ code.insns.flatMap Insn.handles ↔
      ∃ insn ∈ code.insns, insn.Holds h := by
    simp only [List.mem_flatMap, Insn.mem_handles_iff]
  unfold lambdaBodies PointsAt Method.Holds
  cases m.code with
  | none => simp
  | some code =>
    simp only [List.mem_filterMap, holds, Option.some.injEq, exists_eq_left']
    constructor
    · rintro ⟨h, held, kept⟩
      split at kept
      · rename_i mine
        rw [Bool.and_eq_true, beq_iff_eq, Bool.not_eq_true'] at mine
        split at kept
        · rename_i lambda found
          split at kept
          · rename_i synthetic
            cases kept
            exact ⟨h, lambda, held, ⟨mine.2, mine.1, found, synthetic⟩, rfl⟩
          · cases kept
        · cases kept
      · cases kept
    · rintro ⟨h, lambda, held, of, rfl⟩
      exact ⟨h, held, by simp [of.method, of.owner, of.found, of.synthetic, Method.signature]⟩

/-- What copying brings: what was asked for, and the synthetic methods that handles in there point
at, and so on. -/
inductive Brought (source : ClassFile) (methods : List (String × String)) :
    String × String → Prop
  | asked {s : String × String} (mem : s ∈ methods) : Brought source methods s
  | along {s t : String × String} {m : Method} (brought : Brought source methods s)
    (found : source.method? s.1 s.2 = some m) (points : PointsAt source m t) :
    Brought source methods t

theorem Brought.mem {all : List (String × String)} (asked : ∀ s ∈ methods, s ∈ all)
    (closed : ∀ s ∈ all, ∀ m ∈ source.method? s.1 s.2, ∀ t ∈ lambdaBodies source m, t ∈ all)
    (brought : Brought source methods s) : s ∈ all := by
  induction brought with
  | asked mem => exact asked _ mem
  | along _ found points ih => exact closed _ ih _ found _ (mem_lambdaBodies.2 points)

/-! ## The work list -/

theorem mem_addUnseen {known more : List (String × String)} :
    s ∈ addUnseen known more ↔ s ∈ known ∨ s ∈ more := by
  induction more generalizing known with
  | nil => simp [addUnseen]
  | cons first rest ih =>
    rw [addUnseen, ih, List.mem_cons]
    split
    · rename_i seen
      have known := List.contains_iff_mem.1 seen
      constructor
      · exact Or.imp_right .inr
      · rintro (here | rfl | later)
        · exact .inl here
        · exact .inl known
        · exact .inr later
    · rw [List.mem_append, List.mem_singleton, or_assoc]

/-- Methods of the source that have joined a work list, each once. -/
structure Joined (source : ClassFile) (joined : List (String × String)) : Prop where
  nodup : joined.Nodup
  found : ∀ s ∈ joined, (source.method? s.1 s.2).isSome = true

theorem mem_signatures_of_isSome (found : (source.method? s.1 s.2).isSome = true) :
    s ∈ source.methods.map Method.signature := by
  obtain ⟨m, found⟩ := Option.isSome_iff_exists.1 found
  refine List.mem_map.2 ⟨m, List.mem_of_find?_eq_some found, ?_⟩
  obtain ⟨name, desc⟩ := method?_signature found
  rw [Method.signature, name, desc]

theorem Joined.length_le {joined : List (String × String)} (h : Joined source joined) :
    joined.length ≤ source.methods.length := by
  have sub : joined ⊆ source.methods.map Method.signature := fun s mem =>
    mem_signatures_of_isSome (h.found s mem)
  simpa using (h.nodup.subperm sub).length_le

theorem Joined.exists_addUnseen {joined more : List (String × String)} (h : Joined source joined)
    (found : ∀ s ∈ more, (source.method? s.1 s.2).isSome = true) :
    ∃ joined', addUnseen (methods ++ joined) more = methods ++ joined' ∧
      Joined source joined' := by
  induction more generalizing joined with
  | nil => exact ⟨joined, rfl, h⟩
  | cons s rest ih =>
    obtain ⟨here, later⟩ := List.forall_mem_cons.1 found
    rw [addUnseen]
    split
    · exact ih h later
    · rename_i unseen
      rw [List.append_assoc]
      refine ih ⟨?_, ?_⟩ later
      · rw [List.nodup_append_comm]
        refine List.nodup_cons.2 ⟨fun mem => unseen ?_, h.nodup⟩
        exact List.contains_iff_mem.2 (List.mem_append_right _ mem)
      · rw [List.forall_mem_append, List.forall_mem_singleton]
        exact ⟨h.found, here⟩

/-- Worked off from position `next` on, the list `pending` ends as `all`. -/
inductive Drains (source : ClassFile) : Nat → List (String × String) →
    List (String × String) → Prop
  | done {next : Nat} {pending : List (String × String)} (ended : pending.length ≤ next) :
    Drains source next pending pending
  | step {next : Nat} {pending all : List (String × String)} {s : String × String} {m : Method}
    (waiting : pending[next]? = some s) (found : source.method? s.1 s.2 = some m)
    (rest : Drains source (next + 1) (addUnseen pending (lambdaBodies source m)) all) :
    Drains source next pending all

theorem found_of_mem_lambdaBodies (mem : s ∈ lambdaBodies source m) :
    (source.method? s.1 s.2).isSome = true := by
  obtain ⟨h, lambda, _, of, rfl⟩ := mem_lambdaBodies.1 mem
  obtain ⟨name, desc⟩ := of.signature
  rw [Method.signature, name, desc, of.found]
  rfl

theorem exists_drained (asked : ∀ s ∈ methods, (source.method? s.1 s.2).isSome = true)
    {joined : List (String × String)} (h : Joined source joined) (next : Nat) :
    ∃ joined', Drains source next (methods ++ joined) (methods ++ joined') ∧
      Joined source joined' := by
  -- the induction is on what is left of the bound that `Joined.length_le` puts on the list
  induction left : methods.length + source.methods.length - next generalizing next joined with
  | zero =>
    have bound := h.length_le
    exact ⟨joined, .done (by rw [List.length_append]; omega), h⟩
  | succ n ih =>
    cases waiting : (methods ++ joined)[next]? with
    | none => exact ⟨joined, .done (List.getElem?_eq_none_iff.1 waiting), h⟩
    | some s =>
      have present : ∀ s ∈ methods ++ joined, (source.method? s.1 s.2).isSome = true :=
        List.forall_mem_append.2 ⟨asked, h.found⟩
      obtain ⟨m, found⟩ := Option.isSome_iff_exists.1 (present s (List.mem_of_getElem? waiting))
      obtain ⟨more, grown, h₁⟩ : ∃ more, addUnseen (methods ++ joined) (lambdaBodies source m) =
          methods ++ more ∧ Joined source more :=
        h.exists_addUnseen fun _ mem => found_of_mem_lambdaBodies mem
      obtain ⟨joined', rest, h'⟩ := ih h₁ (next + 1) (by omega)
      exact ⟨joined', .step waiting found (grown ▸ rest), h'⟩

namespace Drains

variable {next : Nat} {pending all : List (String × String)}

theorem isPrefix (drains : Drains source next pending all) : pending <+: all := by
  induction drains with
  | done _ => exact List.prefix_rfl
  | step _ _ _ ih => exact (prefix_addUnseen _ _).trans ih

theorem drop_eq (waiting : pending[next]? = some s) (grown : pending <+: all) :
    all.drop next = s :: all.drop (next + 1) := by
  obtain ⟨inside, rfl⟩ := List.getElem?_eq_some_iff.1 waiting
  rw [grown.getElem inside, List.drop_eq_getElem_cons]

theorem brought (drains : Drains source next pending all)
    (before : ∀ s ∈ pending, Brought source methods s) : ∀ s ∈ all, Brought source methods s := by
  induction drains with
  | done _ => exact before
  | step waiting found _ ih =>
    refine ih fun t mem => ?_
    rcases mem_addUnseen.1 mem with mem | mem
    · exact before t mem
    · exact .along (before _ (List.mem_of_getElem? waiting)) found (mem_lambdaBodies.1 mem)

theorem closed (drains : Drains source next pending all) :
    ∀ s ∈ all.drop next, ∃ m, source.method? s.1 s.2 = some m ∧
      ∀ t ∈ lambdaBodies source m, t ∈ all := by
  induction drains with
  | done ended =>
    rw [List.drop_eq_nil_of_le ended]
    exact fun s mem => nomatch mem
  | step waiting found rest ih =>
    rw [drop_eq waiting ((prefix_addUnseen _ _).trans rest.isPrefix), List.forall_mem_cons]
    refine ⟨⟨_, found, fun t mem => ?_⟩, ih⟩
    exact rest.isPrefix.subset (mem_addUnseen.2 (.inr mem))

theorem mem_iff (drains : Drains source 0 methods all) :
    s ∈ all ↔ Brought source methods s := by
  constructor
  · exact drains.brought (fun _ mem => .asked mem) s
  · refine Brought.mem drains.isPrefix.subset fun s mem m found t inside => ?_
    obtain ⟨m', found', closed⟩ := drains.closed s (List.drop_zero (l := all) ▸ mem)
    rw [Option.mem_def.1 found, Option.some.injEq] at found'
    exact closed t (found' ▸ inside)

end Drains

/-! ## The copies -/

def bring (source : ClassFile) (r : Renaming) (c : ClassFile) (s : String × String) : ClassFile :=
  match source.method? s.1 s.2 with
  | none => c
  | some m => (c.addMethod (r.rehome m)).2

theorem hasSignature_rehome_iff (found : source.method? s.1 s.2 = some m) :
    (r.rehome m).hasSignature t.1 (r.desc t.2) = true ↔ s.1 = t.1 ∧ r.desc s.2 = r.desc t.2 := by
  obtain ⟨name, desc⟩ := method?_signature found
  rw [Method.hasSignature, Renaming.rehome, name, desc, Bool.and_eq_true, beq_iff_eq, beq_iff_eq]

theorem method?_rehome (found : source.method? s.1 s.2 = some m) :
    c.method? (r.rehome m).name (r.rehome m).desc = c.method? s.1 (r.desc s.2) := by
  obtain ⟨name, desc⟩ := method?_signature found
  rw [Renaming.rehome, name, desc]

theorem bring_of_taken (taken : (c.method? s.1 (r.desc s.2)).isSome = true) :
    bring source r c s = c := by
  unfold bring
  split
  · rfl
  · rename_i m found
    rw [ClassFile.addMethod, method?_rehome found, if_pos taken]

theorem bring_of_free (found : source.method? s.1 s.2 = some m)
    (free : ¬ (c.method? s.1 (r.desc s.2)).isSome = true) :
    bring source r c s = { c with methods := c.methods ++ [r.rehome m] } := by
  rw [← method?_rehome found] at free
  rw [bring, found]
  exact addMethod_snd free

theorem copyPending_waiting {next : Nat} {pending : List (String × String)}
    (waiting : pending[next]? = some s) (found : source.method? s.1 s.2 = some m) (fuel : Nat)
    (changed : Bool) :
    copyPending source r (fuel + 1) next pending changed c =
      copyPending source r fuel (next + 1) (addUnseen pending (lambdaBodies source m))
        (changed || !(c.method? s.1 (r.desc s.2)).isSome) (bring source r c s) := by
  rw [copyPending_succ, waiting]
  dsimp only
  rw [found]
  dsimp only
  split
  · rename_i taken
    rw [bring_of_taken taken, taken, Bool.not_true, Bool.or_false]
  · rename_i free
    rw [bring, found, addMethod_fst (method?_rehome (c := c) (r := r) found ▸ free),
      Bool.eq_false_iff.2 free]
    rfl

theorem copyPending_of_drains {next : Nat} {pending all : List (String × String)}
    (drains : Drains source next pending all) (changed : Bool) (c : ClassFile) :
    ∃ now, ∀ fuel, all.length ≤ next + fuel →
      copyPending source r fuel next pending changed c =
        (.ok now, (all.drop next).foldl (bring source r) c) := by
  induction drains generalizing changed c with
  | done ended =>
    refine ⟨changed, fun fuel _ => ?_⟩
    rw [List.drop_eq_nil_of_le ended]
    cases fuel with
    | zero => rfl
    | succ fuel => rw [copyPending_succ, List.getElem?_eq_none ended]; rfl
  | @step next pending all s m waiting found rest ih =>
    have grown := (prefix_addUnseen _ _).trans rest.isPrefix
    rw [Drains.drop_eq waiting grown, List.foldl_cons]
    have inside : next < all.length :=
      Nat.lt_of_lt_of_le (List.getElem?_eq_some_iff.1 waiting).1 grown.length_le
    obtain ⟨now, run⟩ := ih (changed || !(c.method? s.1 (r.desc s.2)).isSome) (bring source r c s)
    refine ⟨now, fun fuel room => ?_⟩
    obtain ⟨fuel, rfl⟩ : ∃ n, fuel = n + 1 := ⟨fuel - 1, by omega⟩
    rw [copyPending_waiting waiting found, run fuel (by omega)]

/-- The methods that `order` lists have been copied in that order, and nothing else has changed. -/
structure Gained (source : ClassFile) (r : Renaming) (c : ClassFile)
    (order : List (String × String)) (c' : ClassFile) : Prop where
  once : order.Nodup
  found : ∀ s ∈ order, (source.method? s.1 s.2).isSome = true
  whole : c' = { c with
    methods := c.methods ++ order.filterMap fun s => (source.method? s.1 s.2).map r.rehome }

namespace Gained

variable {order : List (String × String)}

theorem taken (gained : Gained source r c order c') (mem : s ∈ order) :
    (c'.method? s.1 (r.desc s.2)).isSome = true := by
  obtain ⟨m, found⟩ := Option.isSome_iff_exists.1 (gained.found s mem)
  rw [gained.whole, ClassFile.method?, List.find?_append, Option.isSome_or, Bool.or_eq_true]
  right
  rw [List.find?_isSome]
  refine ⟨r.rehome m, List.mem_filterMap.2 ⟨s, mem, by rw [found]; rfl⟩, ?_⟩
  exact (hasSignature_rehome_iff found).2 ⟨rfl, rfl⟩

theorem free (gained : Gained source r c order c')
    (clear : c.method? s.1 (r.desc s.2) = none)
    (apart : ∀ t ∈ order, t.1 = s.1 → r.desc t.2 ≠ r.desc s.2) :
    c'.method? s.1 (r.desc s.2) = none := by
  rw [gained.whole, ClassFile.method?, List.find?_append, Option.or_eq_none_iff]
  refine ⟨clear, List.find?_eq_none.2 fun copy mem => ?_⟩
  obtain ⟨t, inside, copied⟩ := List.mem_filterMap.1 mem
  obtain ⟨m, found, rfl⟩ := Option.map_eq_some_iff.1 copied
  rw [hasSignature_rehome_iff found]
  rintro ⟨sameName, sameDesc⟩
  exact apart t inside sameName sameDesc

theorem snoc (gained : Gained source r c order c') (found : source.method? s.1 s.2 = some m)
    (fresh : s ∉ order) (free : c'.method? s.1 (r.desc s.2) = none) :
    Gained source r c (order ++ [s]) (bring source r c' s) where
  once := by
    rw [List.nodup_append_comm]
    exact List.nodup_cons.2 ⟨fresh, gained.once⟩
  found := List.forall_mem_append.2
    ⟨gained.found, List.forall_mem_singleton.2 (Option.isSome_of_eq_some found)⟩
  whole := by
    have copy : [s].filterMap (fun s => (source.method? s.1 s.2).map r.rehome) =
        [r.rehome m] := by
      simp [found]
    rw [bring_of_free found (by rw [free]; exact Bool.false_ne_true), List.filterMap_append, copy,
      ← List.append_assoc, gained.whole]

end Gained

theorem exists_gained {all : List (String × String)}
    (found : ∀ s ∈ all, ∃ m, source.method? s.1 s.2 = some m)
    (free : ∀ s ∈ all, c.method? s.1 (r.desc s.2) = none)
    (apart : ∀ s ∈ all, ∀ t ∈ all, s.1 = t.1 → r.desc s.2 = r.desc t.2 → s = t) :
    ∃ order, (∀ s, s ∈ order ↔ s ∈ all) ∧
      Gained source r c order (all.foldl (bring source r) c) := by
  -- from the back, so that each step finds what the methods in front of it have left
  induction all using List.reverseRecOn with
  | nil =>
    refine ⟨[], fun _ => Iff.rfl, List.nodup_nil, List.forall_mem_nil _, ?_⟩
    rw [List.filterMap_nil, List.append_nil]
    rfl
  | append_singleton done s ih =>
    obtain ⟨found, here⟩ := List.forall_mem_append.1 found
    obtain ⟨m, here⟩ := here s (List.mem_singleton_self s)
    have inside {t : String × String} (mem : t ∈ done) : t ∈ done ++ [s] :=
      List.mem_append_left _ mem
    have last : s ∈ done ++ [s] := List.mem_append_right _ (List.mem_singleton_self s)
    obtain ⟨order, same, gained⟩ := ih found (fun t mem => free t (inside mem))
      fun t ht u hu => apart t (inside ht) u (inside hu)
    rw [List.foldl_append, List.foldl_cons, List.foldl_nil]
    by_cases seen : s ∈ order
    · refine ⟨order, fun t => ?_, ?_⟩
      · rw [List.mem_append, List.mem_singleton, same]
        exact ⟨.inl, Or.rec id fun eq => eq ▸ (same s).1 seen⟩
      · rwa [bring_of_taken (gained.taken seen)]
    · refine ⟨order ++ [s], fun t => by rw [List.mem_append, List.mem_append, same], ?_⟩
      refine gained.snoc here seen (gained.free (free s last) fun t mem sameName sameDesc => ?_)
      exact seen (apart t (inside ((same t).1 mem)) s last sameName sameDesc ▸ mem)

theorem exists_copied (asked : ∀ s ∈ methods, (source.method? s.1 s.2).isSome = true)
    (r : Renaming) (c : ClassFile) :
    ∃ (all : List (String × String)) (now : Bool), (∀ s, s ∈ all ↔ Brought source methods s) ∧
      (∀ s ∈ all, ∃ m, source.method? s.1 s.2 = some m) ∧
      ∀ more, copyPending source r (methods.length + source.methods.length + 1 + more) 0 methods
        false c = (.ok now, all.foldl (bring source r) c) := by
  obtain ⟨joined, drains, h⟩ := exists_drained asked
    (⟨List.nodup_nil, List.forall_mem_nil _⟩ : Joined source []) 0
  rw [List.append_nil] at drains
  obtain ⟨now, run⟩ := copyPending_of_drains (r := r) drains false c
  refine ⟨_, now, fun s => drains.mem_iff, fun s mem => ?_, fun more => run _ ?_⟩
  · obtain ⟨m, found, _⟩ := drains.closed s mem
    exact ⟨m, found⟩
  · have bound := h.length_le
    rw [List.length_append]
    omega

theorem copied_of_run {ctx : EditContext} {now : Bool}
    (run : (apply ctx (.addMethods source methods r)).run c = (.ok now, c')) :
    ∃ all : List (String × String), (∀ s, s ∈ all ↔ Brought source methods s) ∧
      (∀ s ∈ all, ∃ m, source.method? s.1 s.2 = some m) ∧ c' = all.foldl (bring source r) c ∧
      ∀ more, copyPending source r (methods.length + source.methods.length + 1 + more) 0 methods
        false c = (.ok now, c') := by
  obtain ⟨all, now', brought, found, runs⟩ := exists_copied
    (fun s mem => (copied_apply run (s := s) mem).1) r c
  obtain ⟨rfl, rfl⟩ : now = now' ∧ c' = all.foldl (bring source r) c := by
    cases run.symm.trans (runs 0)
    exact ⟨rfl, rfl⟩
  exact ⟨all, brought, found, rfl, runs⟩

/-- Copying fails exactly where something that is asked for is absent. Where the signatures of what
is brought are free and stay apart, copying ends by itself with all of it at the end of the class,
each method once, and changes nothing else. -/
theorem addMethods_closed {ctx : EditContext}
    (free : ∀ s, Brought source methods s → c.method? s.1 (r.desc s.2) = none)
    (apart : ∀ s t, Brought source methods s → Brought source methods t → s.1 = t.1 →
      r.desc s.2 = r.desc t.2 → s = t) :
    ((∃ e c', (apply ctx (.addMethods source methods r)).run c = (.error e, c')) ↔
      ∃ s ∈ methods, source.method? s.1 s.2 = none) ∧
    ∀ now c', (apply ctx (.addMethods source methods r)).run c = (.ok now, c') →
      (∀ more, copyPending source r (methods.length + source.methods.length + 1 + more) 0 methods
        false c = (.ok now, c')) ∧
      ∃ order, (∀ s, s ∈ order ↔ Brought source methods s) ∧ Gained source r c order c' := by
  refine ⟨⟨?_, ?_⟩, fun now c' run => ?_⟩
  · rintro ⟨e, c', failed⟩
    by_contra none
    have asked : ∀ s ∈ methods, (source.method? s.1 s.2).isSome = true := fun s mem =>
      Option.isSome_iff_ne_none.2 fun absent => none ⟨s, mem, absent⟩
    obtain ⟨_, _, _, _, runs⟩ := exists_copied asked r c
    cases failed.symm.trans (runs 0)
  · rintro ⟨s, mem, absent⟩
    cases run : (apply ctx (.addMethods source methods r)).run c with
    | mk outcome c' =>
      cases outcome with
      | error e => exact ⟨e, c', rfl⟩
      | ok now =>
        have here := (copied_apply run mem).1
        rw [absent] at here
        cases here
  · obtain ⟨all, brought, found, rfl, runs⟩ := copied_of_run run
    obtain ⟨order, same, gained⟩ := exists_gained (r := r) (c := c) found
      (fun s mem => free s ((brought s).1 mem))
      fun s hs t ht => apart s t ((brought s).1 hs) ((brought t).1 ht)
    exact ⟨runs, order, fun s => (same s).trans (brought s), gained⟩

def lambdaHandle (owner name : String) : Handle := ⟨6, ⟨owner, name, "()V"⟩, false⟩

def lambdaBody (name : String) (insns : List Insn) : Method :=
  ⟨⟨Access.syntheticBit ||| Access.staticBit⟩, name, "()V", some (Code.ofInsns insns), []⟩

/-- A method with one lambda, which has the other one in a nested constant; that points back, and at
a method that is not synthetic. -/
def lambdaSource : ClassFile :=
  let site : Insn := .callSite "run" "()Ljava/lang/Runnable;"
    ⟨lambdaHandle "lib" "metafactory", [.methodType "()V", .handle (lambdaHandle "m" "lambda$0")]⟩
  let inner : Loadable :=
    .dynamic "y" "I" (lambdaHandle "lib" "inner") [.handle (lambdaHandle "m" "lambda$1")]
  { ClassFile.new "m" none with
    methods := [
      ⟨⟨0⟩, "task", "()V", some (Code.ofInsns [site]), []⟩,
      lambdaBody "lambda$0" [.ldc (.dynamic "x" "I" (lambdaHandle "lib" "outer") [inner])],
      lambdaBody "lambda$1" [.ldc (.handle (lambdaHandle "m" "lambda$0")),
        .ldc (.handle (lambdaHandle "m" "aside"))],
      ⟨⟨0⟩, "aside", "()V", some (Code.ofInsns []), []⟩,
      lambdaBody "lambda$2" []] }

def lambdaRules : Renaming := Renaming.empty.renameClass "m" "a"

theorem addMethods_closed_mutual : ∃ now c' order,
    (apply noContext (.addMethods lambdaSource [("task", "()V")] lambdaRules)).run
        (ClassFile.new "a" none) = (.ok now, c') ∧
      Gained lambdaSource lambdaRules (ClassFile.new "a" none) order c' ∧
      ∀ s, s ∈ order ↔ s ∈ [("task", "()V"), ("lambda$0", "()V"), ("lambda$1", "()V")] := by
  have task : Brought lambdaSource [("task", "()V")] ("task", "()V") := .asked (by decide)
  have first : Brought lambdaSource [("task", "()V")] ("lambda$0", "()V") :=
    task.along rfl (mem_lambdaBodies.1 (by decide))
  have second : Brought lambdaSource [("task", "()V")] ("lambda$1", "()V") :=
    first.along rfl (mem_lambdaBodies.1 (by decide))
  have brought (s : String × String) : Brought lambdaSource [("task", "()V")] s ↔
      s ∈ [("task", "()V"), ("lambda$0", "()V"), ("lambda$1", "()V")] := by
    refine ⟨fun h => h.mem (by decide) (by decide), fun mem => ?_⟩
    rw [List.mem_cons, List.mem_cons, List.mem_singleton] at mem
    rcases mem with rfl | rfl | rfl
    · exact task
    · exact first
    · exact second
  have names : ∀ s ∈ [("task", "()V"), ("lambda$0", "()V"), ("lambda$1", "()V")],
      ∀ t ∈ [("task", "()V"), ("lambda$0", "()V"), ("lambda$1", "()V")],
        s.1 = t.1 → s = t := by decide
  obtain ⟨fails, copies⟩ := @addMethods_closed lambdaSource (ClassFile.new "a" none) lambdaRules
    [("task", "()V")] noContext (fun _ _ => rfl) fun s t hs ht sameName _ =>
      names s ((brought s).1 hs) t ((brought t).1 ht) sameName
  cases run : (apply noContext (.addMethods lambdaSource [("task", "()V")] lambdaRules)).run
      (ClassFile.new "a" none) with
  | mk outcome c' =>
    cases outcome with
    | error e =>
      obtain ⟨s, mem, absent⟩ := fails.1 ⟨e, c', run⟩
      rw [List.mem_singleton.1 mem] at absent
      cases absent
    | ok now =>
      obtain ⟨_, order, same, gained⟩ := copies now c' run
      exact ⟨now, c', order, rfl, gained, fun s => (same s).trans (brought s)⟩

end Edit

end ClassWeave
