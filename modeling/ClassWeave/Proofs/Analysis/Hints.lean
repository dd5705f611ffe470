import Mathlib.Data.List.Forall2
import Mathlib.Tactic.Common
import ClassWeave.Proofs.Analysis.Reframe

/-!
# Hints

A frame left from before an edit may replace a merged type by a narrower one. Wherever it has not
done so, the recorded type accepts everything that the edges deliver. Where it has, what is
recorded is the type of the hint, which fits the merged type but need not fit what is delivered:
the replacement does not look at whether the merge lost anything.
-/

set_option autoImplicit false

namespace ClassWeave

/-- What a slot of a recorded type takes. -/
inductive VType.Accepts (h : Hierarchy) : VType → VType → Prop where
  | top (t : VType) : Accepts h .top t
  | same (t : VType) : Accepts h t t
  | null (name : String) : Accepts h (.object name) .null
  | object {wanted given : String} (fits : h.isAssignable wanted given = true) :
      Accepts h (.object wanted) (.object given)

def VType.IsReference : VType → Prop
  | .null | .object _ => True
  | _ => False

namespace Hierarchy

variable {h : Hierarchy} {hint : Option VType} {t u v w : VType}

theorem assignable_of_over {a b : List Char} (covers : h.Over a b) : h.assignable b a = true := by
  cases covers with
  | refl => rw [assignable.eq_def, if_pos (.inl rfl)]
  | object => rw [assignable.eq_def, if_pos (.inr rfl)]
  | ofClass ha hb above => exact (isAssignable_iff hb ha).2 above
  | @ofClasses a b ha hb above =>
    have element : ∀ c : String, objectElement? ('L' :: c.toList ++ [';']) = some c.toList :=
      fun c => objectElement?_eq_some.2 rfl
    have classes : h.assignable b.toList a.toList = true := (isAssignable_iff hb ha).2 above
    rw [assignable.eq_def]
    split
    · rfl
    · simp only [arrayOfClass, List.cons_append] at element ⊢
      split
      · rename_i wanted given first second
        rw [element b] at first
        rw [element a] at second
        cases first
        cases second
        exact classes
      · rename_i absent
        rw [element a] at absent
        cases absent
      · rename_i absent
        rw [element a] at absent
        cases absent
      · rename_i absent _
        rw [element b] at absent
        cases absent

theorem accepts_of_join (ht : t.Shallow) (hu : u.Shallow) (absorbs : h.joinTypes t u = t) :
    t.Accepts h u := by
  rcases joinTypes_cases h t u with ⟨rfl, _⟩ | ⟨rfl, ⟨y, rfl⟩, join⟩ | ⟨⟨x, rfl⟩, rfl, _⟩ |
    ⟨x, y, rfl, rfl⟩ | join
  · exact .same t
  · rw [absorbs] at join
    cases join
  · exact .null x
  · rw [joinTypes_object] at absorbs
    refine .object (assignable_of_over ?_)
    exact (joinNames_eq_left ht hu).1 (VType.object.inj absorbs)
  · rw [absorbs] at join
    rw [join]
    exact .top u

theorem isReference_of_join {name : String} (join : h.joinTypes t u = .object name) :
    t.IsReference ∧ u.IsReference := by
  rcases joinTypes_cases h t u with ⟨rfl, same⟩ | ⟨rfl, ⟨y, rfl⟩, _⟩ | ⟨⟨x, rfl⟩, rfl, _⟩ |
    ⟨x, y, rfl, rfl⟩ | top
  · rw [join] at same
    rw [← same]
    exact ⟨trivial, trivial⟩
  · exact ⟨trivial, trivial⟩
  · exact ⟨trivial, trivial⟩
  · exact ⟨trivial, trivial⟩
  · rw [join] at top
    cases top

theorem isReference_of_absorbs (ht : t.IsReference) (absorbs : h.joinTypes t u = t) :
    u.IsReference := by
  cases t with
  | null =>
    rcases joinTypes_cases h .null u with ⟨rfl, _⟩ | ⟨_, ⟨y, rfl⟩, _⟩ | ⟨_, rfl, _⟩ |
      ⟨_, _, _, rfl⟩ | top
    · exact trivial
    · exact trivial
    · exact trivial
    · exact trivial
    · rw [absorbs] at top
      cases top
  | object name => exact (isReference_of_join absorbs).2
  | _ => exact ht.elim

def sharpenSlot (h : Hierarchy) (hint : Option VType) (merged : VType) : VType :=
  match hint with
  | some hinted => h.sharpenType merged hinted
  | none => merged

theorem sharpenSlot_cases (h : Hierarchy) (hint : Option VType) (merged : VType) :
    h.sharpenSlot hint merged = merged ∨ ∃ known want, merged = .object known ∧
      hint = some (.object want) ∧ h.isAssignable known want = true ∧
      h.sharpenSlot hint merged = .object want := by
  unfold sharpenSlot
  cases hint with
  | none => exact .inl rfl
  | some hinted =>
    unfold sharpenType
    dsimp only
    split
    · rename_i known want
      split
      · rename_i fits
        exact .inr ⟨known, want, rfl, rfl, fits.2, rfl⟩
      · exact .inl rfl
    · exact .inl rfl

theorem sharpenSlot_of_assignable {known want : String}
    (fits : h.isAssignable known want = true) :
    h.sharpenSlot (some (.object want)) (.object known) = .object want := by
  by_cases same : known = want
  · rw [sharpenSlot, sharpenType, if_neg fun other => other.1 same, same]
  · rw [sharpenSlot, sharpenType, if_pos ⟨same, fits⟩]

theorem shallow_sharpenSlot (ht : t.Shallow) (hw : ∀ w, hint = some w → w.Shallow) :
    (h.sharpenSlot hint t).Shallow := by
  rcases sharpenSlot_cases h hint t with same | ⟨_, want, _, hinted, _, same⟩
  · rwa [same]
  · rw [same]
    exact hw _ hinted

def Counts (h : Hierarchy) (hint : Option VType) (t u : VType) : Prop :=
  h.joinTypes t u = t ∨ hint = some t ∧ (∃ name, t = .object name) ∧ u.IsReference

theorem counts_arrived (ht : t.Shallow) (hu : u.Shallow) :
    h.Counts hint (h.sharpenSlot hint (h.joinTypes t u)) u := by
  rcases sharpenSlot_cases h hint (h.joinTypes t u) with same | ⟨_, want, join, hinted, _, same⟩
  · rw [same]
    exact .inl (joinTypes_absorbs ht hu)
  · rw [same]
    exact .inr ⟨hinted, ⟨want, rfl⟩, (isReference_of_join join).2⟩

theorem Counts.stays (counts : h.Counts hint t v) (ht : t.Shallow) (hu : u.Shallow)
    (hv : v.Shallow) : h.Counts hint (h.sharpenSlot hint (h.joinTypes t u)) v := by
  rcases counts with absorbs | ⟨hinted, ⟨want, rfl⟩, reference⟩
  · rcases sharpenSlot_cases h hint (h.joinTypes t u) with same | ⟨_, want, join, hinted, _, same⟩
    · rw [same]
      exact .inl (joinTypes_stable ht hu hv absorbs)
    · rw [same]
      exact .inr ⟨hinted, ⟨want, rfl⟩,
        isReference_of_absorbs (isReference_of_join join).1 absorbs⟩
  · subst hinted
    -- a slot that has the hinted class keeps it, whatever class is merged into it
    have kept : ∀ known : String, h.isAssignable known want = true →
        h.joinTypes (.object want) u = .object known →
        h.Counts (some (.object want)) (h.sharpenSlot (some (.object want))
          (h.joinTypes (.object want) u)) v := by
      intro known fits join
      rw [join, sharpenSlot_of_assignable fits]
      exact .inr ⟨rfl, ⟨want, rfl⟩, reference⟩
    have self : h.isAssignable want want = true := assignable_of_over (.refl _)
    rcases joinTypes_cases h (.object want) u with ⟨_, join⟩ | ⟨no, _, _⟩ | ⟨_, _, join⟩ |
      ⟨_, y, same, rfl⟩ | join
    · exact kept want self join
    · cases no
    · exact kept want self join
    · cases same
      refine kept (h.joinNames want y) ?_ (joinTypes_object h want y)
      rw [isAssignable, joinNames, String.toList_ofList]
      exact assignable_of_over (over_joinChars ht hu).1
    · rw [join]
      have top : h.sharpenSlot (some (.object want)) .top = .top := rfl
      rw [top]
      exact .inl (joinTypes_top h v)

end Hierarchy

def hintedLocal (hint : Option State) (k : Nat) : Option VType := hint.bind fun g => g.locals[k]?

def hintedEntry (hint : Option State) (height k : Nat) : Option VType :=
  hint.bind fun g => if height = g.stack.length then g.stack[k]? else none

structure State.Slotwise (R : Option VType → VType → VType → Prop) (hint : Option State)
    (s t : State) : Prop where
  width : s.locals.length = t.locals.length
  height : s.stack.length = t.stack.length
  locals : ∀ k x y, s.locals[k]? = some x → t.locals[k]? = some y → R (hintedLocal hint k) x y
  stack : ∀ k x y, s.stack[k]? = some x → t.stack[k]? = some y →
    R (hintedEntry hint s.stack.length k) x y

namespace Hierarchy

variable {h : Hierarchy} {hint : Option State} {s t u : State}

theorem locals_sharpened (hint : Option State) (s : State) (k : Nat) :
    (h.sharpened hint s).locals[k]? =
      s.locals[k]?.map (h.sharpenSlot (hintedLocal hint k)) := by
  cases hint with
  | none => exact Option.map_id'.symm
  | some g =>
    show (meetEntries h.sharpenType s.locals g.locals)[k]? = _
    rw [getElem?_meetEntries]
    rfl

theorem stack_sharpened (hint : Option State) (s : State) (k : Nat) :
    (h.sharpened hint s).stack[k]? =
      s.stack[k]?.map (h.sharpenSlot (hintedEntry hint s.stack.length k)) := by
  cases hint with
  | none => exact Option.map_id'.symm
  | some g =>
    show (if s.stack.length = g.stack.length then meetEntries h.sharpenType s.stack g.stack
      else s.stack)[k]? = _
    simp only [hintedEntry, Option.bind_some]
    split
    · rw [getElem?_meetEntries]
      rfl
    · exact Option.map_id'.symm

/-- A slot of the state that takes the place of another comes from the slot of that one and the
slot of what arrived. -/
theorem locals_sharpened_join (locals : s.locals.length = t.locals.length)
    (stack : s.stack.length = t.stack.length) {k : Nat} {z : VType}
    (found : (h.sharpened hint (h.joinStates s t)).locals[k]? = some z) :
    ∃ x y, s.locals[k]? = some x ∧ t.locals[k]? = some y ∧
      z = h.sharpenSlot (hintedLocal hint k) (h.joinTypes x y) := by
  rw [locals_sharpened, joinStates_eq locals stack] at found
  obtain ⟨m, merged, rfl⟩ := Option.map_eq_some_iff.1 found
  obtain ⟨x, y, hx, hy, rfl⟩ := List.getElem?_zipWith_eq_some.1 merged
  exact ⟨x, y, hx, hy, rfl⟩

theorem stack_sharpened_join (locals : s.locals.length = t.locals.length)
    (stack : s.stack.length = t.stack.length) {k : Nat} {z : VType}
    (found : (h.sharpened hint (h.joinStates s t)).stack[k]? = some z) :
    ∃ x y, s.stack[k]? = some x ∧ t.stack[k]? = some y ∧
      z = h.sharpenSlot (hintedEntry hint s.stack.length k) (h.joinTypes x y) := by
  rw [stack_sharpened, joinStates_eq locals stack] at found
  obtain ⟨m, merged, rfl⟩ := Option.map_eq_some_iff.1 found
  obtain ⟨x, y, hx, hy, rfl⟩ := List.getElem?_zipWith_eq_some.1 merged
  have height : (List.zipWith h.joinTypes s.stack t.stack).length = s.stack.length := by
    rw [List.length_zipWith, ← stack, Nat.min_self]
  exact ⟨x, y, hx, hy, by rw [height]⟩

theorem length_sharpened (hint : Option State) (s : State) :
    (h.sharpened hint s).locals.length = s.locals.length ∧
      (h.sharpened hint s).stack.length = s.stack.length := by
  cases hint with
  | none => exact ⟨rfl, rfl⟩
  | some g =>
    refine ⟨length_meetEntries .., ?_⟩
    show (if _ then _ else _ : List VType).length = _
    split
    · exact length_meetEntries ..
    · rfl

theorem length_sharpened_join (hint : Option State)
    (locals : s.locals.length = t.locals.length) (stack : s.stack.length = t.stack.length) :
    (h.sharpened hint (h.joinStates s t)).locals.length = s.locals.length ∧
      (h.sharpened hint (h.joinStates s t)).stack.length = s.stack.length := by
  have same := length_sharpened (h := h) hint (h.joinStates s t)
  rw [joinStates_eq locals stack, List.length_zipWith, List.length_zipWith, ← locals, ← stack,
    Nat.min_self, Nat.min_self] at same
  rwa [joinStates_eq locals stack]

end Hierarchy

theorem shallow_hintedLocal {hint : Option State} (shallow : ∀ g, hint = some g → g.Shallow)
    {k : Nat} {w : VType} (hinted : hintedLocal hint k = some w) : w.Shallow := by
  obtain ⟨g, same, found⟩ := Option.bind_eq_some_iff.1 hinted
  exact (shallow g same).1 w (List.mem_of_getElem? found)

theorem shallow_hintedEntry {hint : Option State} (shallow : ∀ g, hint = some g → g.Shallow)
    {height k : Nat} {w : VType} (hinted : hintedEntry hint height k = some w) : w.Shallow := by
  obtain ⟨g, same, found⟩ := Option.bind_eq_some_iff.1 hinted
  split at found
  · exact (shallow g same).2 w (List.mem_of_getElem? found)
  · cases found

namespace State

variable {h : Hierarchy} {hint : Option State} {n : Nat} {s t u : State}

theorem Slotwise.refl {R : Option VType → VType → VType → Prop} (same : ∀ hint x, R hint x x)
    (hint : Option State) (s : State) : s.Slotwise R hint s := by
  refine ⟨rfl, rfl, fun k x y hx hy => ?_, fun k x y hx hy => ?_⟩
  · rw [hx] at hy
    cases hy
    exact same _ x
  · rw [hx] at hy
    cases hy
    exact same _ x

theorem Slotwise.imp {R S : Option VType → VType → VType → Prop} (held : s.Slotwise R hint t)
    (imp : ∀ w x y, x ∈ s.locals ++ s.stack → y ∈ t.locals ++ t.stack → R w x y → S w x y) :
    s.Slotwise S hint t :=
  ⟨held.width, held.height,
    fun k x y hx hy => imp _ x y (List.mem_append_left _ (List.mem_of_getElem? hx))
      (List.mem_append_left _ (List.mem_of_getElem? hy)) (held.locals k x y hx hy),
    fun k x y hx hy => imp _ x y (List.mem_append_right _ (List.mem_of_getElem? hx))
      (List.mem_append_right _ (List.mem_of_getElem? hy)) (held.stack k x y hx hy)⟩

theorem Shallow.of_mem (shallow : s.Shallow) {x : VType} (mem : x ∈ s.locals ++ s.stack) :
    x.Shallow :=
  (List.mem_append.1 mem).elim (shallow.1 x) (shallow.2 x)

section Arrival

variable (shallow : ∀ g, hint = some g → g.Shallow) (hs : s.Fit n) (ht : t.Fit n)
  (height : s.stack.length = t.stack.length)

include shallow hs ht height

theorem fit_sharpened_join : (h.sharpened hint (h.joinStates s t)).Fit n := by
  have width : s.locals.length = t.locals.length := hs.length.trans ht.length.symm
  refine ⟨⟨fun z mem => ?_, fun z mem => ?_⟩, ?_⟩
  · obtain ⟨k, found⟩ := List.mem_iff_getElem?.1 mem
    obtain ⟨x, y, hx, hy, rfl⟩ := Hierarchy.locals_sharpened_join width height found
    have join := Hierarchy.shallow_joinTypes (h := h)
      (hs.shallow.1 x (List.mem_of_getElem? hx)) (ht.shallow.1 y (List.mem_of_getElem? hy))
    exact Hierarchy.shallow_sharpenSlot join fun _ => shallow_hintedLocal shallow
  · obtain ⟨k, found⟩ := List.mem_iff_getElem?.1 mem
    obtain ⟨x, y, hx, hy, rfl⟩ := Hierarchy.stack_sharpened_join width height found
    have join := Hierarchy.shallow_joinTypes (h := h)
      (hs.shallow.2 x (List.mem_of_getElem? hx)) (ht.shallow.2 y (List.mem_of_getElem? hy))
    exact Hierarchy.shallow_sharpenSlot join fun _ => shallow_hintedEntry shallow
  · exact (Hierarchy.length_sharpened_join hint width height).1.trans hs.length

omit shallow in
theorem counts_sharpened_join :
    (h.sharpened hint (h.joinStates s t)).Slotwise h.Counts hint t := by
  have width : s.locals.length = t.locals.length := hs.length.trans ht.length.symm
  have same := Hierarchy.length_sharpened_join (h := h) hint width height
  refine ⟨same.1.trans width, same.2.trans height, fun k z y found hy => ?_,
    fun k z y found hy => ?_⟩
  · obtain ⟨x, y', hx, hy', rfl⟩ := Hierarchy.locals_sharpened_join width height found
    cases hy.symm.trans hy'
    exact Hierarchy.counts_arrived (hs.shallow.1 x (List.mem_of_getElem? hx))
      (ht.shallow.1 y (List.mem_of_getElem? hy))
  · obtain ⟨x, y', hx, hy', rfl⟩ := Hierarchy.stack_sharpened_join width height found
    cases hy.symm.trans hy'
    rw [same.2]
    exact Hierarchy.counts_arrived (hs.shallow.2 x (List.mem_of_getElem? hx))
      (ht.shallow.2 y (List.mem_of_getElem? hy))

omit shallow in
theorem Slotwise.stays (held : s.Slotwise h.Counts hint u) (hu : u.Shallow) :
    (h.sharpened hint (h.joinStates s t)).Slotwise h.Counts hint u := by
  have width : s.locals.length = t.locals.length := hs.length.trans ht.length.symm
  have same := Hierarchy.length_sharpened_join (h := h) hint width height
  refine ⟨same.1.trans held.width, same.2.trans held.height, fun k z v found hv => ?_,
    fun k z v found hv => ?_⟩
  · obtain ⟨x, y, hx, hy, rfl⟩ := Hierarchy.locals_sharpened_join width height found
    exact (held.locals k x v hx hv).stays (hs.shallow.1 x (List.mem_of_getElem? hx))
      (ht.shallow.1 y (List.mem_of_getElem? hy)) (hu.1 v (List.mem_of_getElem? hv))
  · obtain ⟨x, y, hx, hy, rfl⟩ := Hierarchy.stack_sharpened_join width height found
    rw [same.2]
    exact (held.stack k x v hx hv).stays (hs.shallow.2 x (List.mem_of_getElem? hx))
      (ht.shallow.2 y (List.mem_of_getElem? hy)) (hu.2 v (List.mem_of_getElem? hv))

end Arrival

end State

namespace Analysis

variable {a : Analysis} {entry : State}

def sharpening (a : Analysis) (n : Nat)
    (shallow : ∀ (i : Nat) (g : State), a.hints[i]? = some g → g.Shallow) : a.Intake where
  Fit := State.Fit n
  CountsFor i s t := s.Slotwise a.hierarchy.Counts a.hints[i]? t
  refl i s := .refl (fun _ x => .inl (Hierarchy.joinTypes_self a.hierarchy x)) _ s
  arrive i current incoming answer currentFit incomingFit arrival := by
    obtain ⟨height, new⟩ := arrive_ok arrival
    rw [new]
    exact ⟨State.fit_sharpened_join (shallow i) currentFit incomingFit height,
      State.counts_sharpened_join currentFit incomingFit height,
      fun t fit held => State.Slotwise.stays currentFit incomingFit height held fit.shallow⟩

/-- What the state recorded at `i` says of one that comes there: slot by slot the recorded type
takes the other, or it is the class of a hint at `i` and the other is a reference. -/
def Takes (a : Analysis) (i : Nat) : State → State → Prop :=
  State.Slotwise (fun hinted x y => x.Accepts a.hierarchy y ∨
    hinted = some x ∧ (∃ name, x = .object name) ∧ y.IsReference) a.hints[i]?

theorem takes_run  (shallow : ∀ (i : Nat) (g : State), a.hints[i]? = some g → g.Shallow)
    (inside : a.flow.Inside) (roomy : a.Roomy entry.locals.length) (typed : a.Typed entry)
    {maxLocals : Nat} {done : Progress} (run : a.run entry maxLocals = .ok done) :
    Intake.Served a a.Takes entry done := by
  have closed := typed.closed (I := a.sharpening _ shallow) roomy fun _ => Iff.rfl
  refine (Intake.invariant_run inside closed run).served fun i s t fit fit' held => ?_
  refine held.imp fun w x y hx hy counts => counts.imp_left fun absorbs => ?_
  exact Hierarchy.accepts_of_join (fit.shallow.of_mem hx) (fit'.shallow.of_mem hy) absorbs

end Analysis

namespace Reframe

variable {h : Hierarchy} {owner : String} {m : Method} {c : Code} {p : Prepared}

theorem mem_of_hinted {positions : Positions} {count maxLocals i : Nat} {g : State}
    (frames : List LabelledFrame)
    (found : (frames.foldl (fun (hints : Std.TreeMap Nat State) x =>
      match positions.find? x.1 with
      | some i => if i < count then hints.insert i (State.ofFrame x.2 maxLocals) else hints
      | none => hints) ∅)[i]? = some g) :
    ∃ x ∈ frames, positions.find? x.1 = some i ∧ g = State.ofFrame x.2 maxLocals := by
  revert found
  refine List.foldlRecOn (motive := fun hints : Std.TreeMap Nat State => hints[i]? = some g →
    ∃ x ∈ frames, positions.find? x.1 = some i ∧ g = State.ofFrame x.2 maxLocals) frames _ ?_ ?_
  · intro found
    rw [Std.TreeMap.getElem?_emptyc] at found
    cases found
  · intro hints ih x mem found
    split at found
    · rename_i j placed
      split at found
      · rw [Std.TreeMap.getElem?_insert] at found
        split at found
        · rename_i same
          cases found
          exact ⟨x, mem, Std.LawfulEqCmp.eq_of_compare same ▸ placed, rfl⟩
        · exact ih found
      · exact ih found
    · exact ih found

theorem hintStates_cases {positions : Positions} {count maxLocals i : Nat} {g : State}
    (found : (hintStates c positions count maxLocals)[i]? = some g) :
    ∃ x, (x ∈ c.frames.getD [] ∨ c.frames.getD [] = [] ∧ x ∈ c.hints) ∧
      positions.find? x.1 = some i ∧ g = State.ofFrame x.2 maxLocals := by
  unfold hintStates at found
  dsimp only at found
  obtain ⟨x, mem, rest⟩ := mem_of_hinted _ found
  refine ⟨x, ?_, rest⟩
  split at mem
  · rename_i same
    rw [same]
    exact .inl mem
  · rename_i other
    refine .inr ⟨?_, mem⟩
    match same : c.frames with
    | none => rfl
    | some [] => rfl
    | some (f :: rest) => exact absurd same (other f rest)

theorem shallow_expandLocals {types : List VType} (shallow : ∀ t ∈ types, t.Shallow)
    (maxLocals : Nat) : ∀ t ∈ expandLocals types maxLocals, t.Shallow := by
  intro t mem
  rcases List.mem_append.1 mem with mem | mem
  · obtain ⟨u, mem, here⟩ := List.mem_flatMap.1 mem
    split at here
    · rcases List.mem_cons.1 here with rfl | here
      · exact shallow _ mem
      · rw [List.mem_singleton.1 here]
        trivial
    · rw [List.mem_singleton.1 here]
      exact shallow u mem
  · rw [List.eq_of_mem_replicate mem]
    trivial

theorem shallow_hints (made : prepare h owner m c = .ok p)
    (shallow : ∀ x ∈ c.frames.getD [] ++ c.hints, ∀ t ∈ x.2.locals ++ x.2.stack, t.Shallow)
    (i : Nat) (g : State) (found : p.analysis.hints[i]? = some g) : g.Shallow := by
  obtain ⟨_, _, _, hints, _⟩ := prepare_eq made
  rw [hints] at found
  obtain ⟨x, mem, _, rfl⟩ := hintStates_cases found
  have listed : x ∈ c.frames.getD [] ++ c.hints :=
    List.mem_append.2 (mem.imp_right And.right)
  refine ⟨shallow_expandLocals (fun t mem => ?_) _, fun t mem => ?_⟩
  · exact shallow x listed t (List.mem_append_left _ mem)
  · exact shallow x listed t (List.mem_append_right _ (List.mem_reverse.1 mem))

theorem mem_framedStates {done : Progress} {x : Nat × State} (mem : x ∈ framedStates p done)
    {s : State} (known : stateAt done.states x.1 = some s) : x.2 = s := by
  rcases framedStates_cases mem with found | ⟨none, _⟩
  · exact Option.some.inj (found.symm.trans known)
  · cases none.symm.trans known

end Reframe

/-- Under hints, each frame shows the state recorded at its instruction. Slot by slot that state
either takes what every edge into the instruction delivers, or it is the class that a frame from
before had there and what is delivered is a reference. -/
theorem takes_reframe {h : Hierarchy} {owner : String} {m : Method} {c c' : Code}
    (shallow : ∀ x ∈ c.frames.getD [] ++ c.hints, ∀ t ∈ x.2.locals ++ x.2.stack, t.Shallow)
    (typed : ∀ p, Reframe.prepare h owner m c = .ok p → p.analysis.Typed p.entry)
    (run : reframe h owner m c true = .ok c') :
    ∃ p done, Reframe.prepare h owner m c = .ok p ∧ p.settle = .ok done ∧
      p.analysis.hierarchy = h ∧ Analysis.Intake.Served p.analysis p.analysis.Takes p.entry done ∧
      (∀ (i : Nat) (g : State), p.analysis.hints[i]? = some g → ∃ x n,
        (x ∈ c.frames.getD [] ∨ c.frames.getD [] = [] ∧ x ∈ c.hints) ∧
          c.positions.find? x.1 = some i ∧ g = State.ofFrame x.2 n) ∧
      ∃ frames, c'.frames = some frames ∧
        List.Forall₂ (fun x g => Stands g.1 x.1 0 c'.insns ∧ g.2 = x.2.toFrame ∧
            ∀ s, stateAt done.states x.1 = some s → x.2 = s)
          (Reframe.framedStates p done) frames := by
  obtain ⟨p, made, run⟩ := bind_ok_iff.1 run
  obtain ⟨done, settled, run⟩ := bind_ok_iff.1 run
  cases run
  obtain ⟨hierarchy, flow, _, hints, _⟩ := Reframe.prepare_eq made
  have positions := (Flow.ofCode_eq flow).2.2.1
  refine ⟨p, done, made, settled, hierarchy, ?_, fun i g found => ?_, ?_⟩
  · exact Analysis.takes_run (Reframe.shallow_hints made shallow) (Reframe.inside_of_prepare made)
      (Reframe.roomy_of_prepare made) (typed p made) settled
  · rw [hints, positions] at found
    obtain ⟨x, mem, placed, same⟩ := Reframe.hintStates_cases found
    exact ⟨x, _, mem, placed, same⟩
  · obtain ⟨frames, same, framed⟩ := Reframe.frames_withFrames made done
    exact ⟨frames, same, forall₂_imp_mem framed fun x mem g _ ⟨stands, type⟩ =>
      ⟨stands, type, fun s known => Reframe.mem_framedStates mem known⟩⟩

/-- `joiningCode` with a frame from before, in which a string is left where the paths join. -/
def hintedCode : Code :=
  { joiningCode with hints := [(⟨2⟩, ⟨[.int], [.object "java/lang/String"]⟩)] }

/-- The string of the old frame is taken over, though the handler's `Throwable` comes there too. -/
theorem takes_hintedCode : ∃ c' p done,
    reframe Hierarchy.empty "A" joiningMethod hintedCode true = .ok c' ∧
    Reframe.prepare Hierarchy.empty "A" joiningMethod hintedCode = .ok p ∧
    p.settle = .ok done ∧ Analysis.Intake.Served p.analysis p.analysis.Takes p.entry done ∧
    c'.frames = some [(⟨1⟩, ⟨[.int], []⟩), (⟨2⟩, ⟨[.int], [.object "java/lang/String"]⟩)] := by
  have computed : ((Reframe.prepare Hierarchy.empty "A" joiningMethod hintedCode).toOption.any
      fun p => (reframe Hierarchy.empty "A" joiningMethod hintedCode true).toOption.any fun c' =>
        p.entry = ⟨[.int], []⟩ ∧ p.analysis.flow.insns.toList = joiningCode.executed ∧
        p.analysis.flow.ranges.map HandlerRange.caught = [.object "java/lang/Throwable"] ∧
        c'.frames = some [(⟨1⟩, ⟨[.int], []⟩),
          (⟨2⟩, ⟨[.int], [.object "java/lang/String"]⟩)]) = true := by
    decide +kernel
  obtain ⟨p, made, computed⟩ := exists_ok_of_any computed
  obtain ⟨c', run, computed⟩ := exists_ok_of_any computed
  obtain ⟨entry, insns, caught, frames⟩ := of_decide_eq_true computed
  have shallow : ∀ x ∈ hintedCode.frames.getD [] ++ hintedCode.hints,
      ∀ t ∈ x.2.locals ++ x.2.stack, t.Shallow := by
    intro x mem t here
    have mem : x ∈ [((⟨2⟩ : Label), (⟨[.int], [.object "java/lang/String"]⟩ : Frame))] := mem
    rw [List.mem_singleton.1 mem] at here
    rcases List.mem_cons.1 here with rfl | here
    · trivial
    · rw [List.mem_singleton.1 here]
      exact VType.shallow_object (by decide)
  have typed : ∀ q, Reframe.prepare Hierarchy.empty "A" joiningMethod hintedCode = .ok q →
      q.analysis.Typed q.entry := by
    intro q made'
    cases made.symm.trans made'
    exact typed_of_joining entry insns caught
  obtain ⟨q, done, made', settled, _, served, _⟩ := takes_reframe shallow typed run
  exact ⟨c', q, done, run, made', settled, served, frames⟩

def narrowedTypes : Hierarchy :=
  ((Hierarchy.empty.insert ⟨"java/lang/Object", none, [], false⟩).insert
    ⟨"java/lang/String", some "java/lang/Object", [], false⟩).insert
      ⟨"A", some "java/lang/Object", [], false⟩

def narrowedLocals : List VType := [.int, .object "java/lang/String", .object "java/lang/String"]

/-- A choice between two strings, in front of which objects are put in their place by an edit. -/
def narrowedCode : Code :=
  { Code.ofInsns [.var Opcode.iload 0, .jump Opcode.ifeq ⟨1⟩, .var Opcode.aload 1,
      .jump Opcode.goto ⟨2⟩, .label ⟨1⟩, .var Opcode.aload 2, .label ⟨2⟩,
      .simple Opcode.areturn] with
    frames := some [(⟨1⟩, ⟨narrowedLocals, []⟩),
      (⟨2⟩, ⟨narrowedLocals, [.object "java/lang/String"]⟩)] }.prepend
    [.field Opcode.getstatic ⟨"A", "f", "Ljava/lang/Object;"⟩, .var Opcode.astore 1,
      .field Opcode.getstatic ⟨"A", "f", "Ljava/lang/Object;"⟩, .var Opcode.astore 2]

def narrowedMethod : Method :=
  ⟨⟨9⟩, "m", "(ZLjava/lang/String;Ljava/lang/String;)Ljava/lang/Object;", some narrowedCode, []⟩

/-- Where control goes from instruction `i`, and with which state. -/
def Analysis.delivered (a : Analysis) (states : States) (i : Nat) : Option (List Nat × State) :=
  match stateAt states i, a.flow.insns[i]? with
  | some before, some insn =>
    match a.flow.successors i insn, a.method.execute i a.sites[i]? insn before with
    | .ok targets, .ok after => some (targets, after)
    | _, _ => none
  | _, _ => none

/-- Where the paths join, both come with objects, and the frame records strings. -/
theorem narrowed_narrowedCode : ∃ c' p done,
    reframe narrowedTypes "A" narrowedMethod narrowedCode true = .ok c' ∧
    Reframe.prepare narrowedTypes "A" narrowedMethod narrowedCode = .ok p ∧
    p.settle = .ok done ∧ p.analysis.flow.ranges = [] ∧
    ((List.range p.analysis.flow.size).filterMap (p.analysis.delivered done.states)).filter
        (fun d => d.1.contains 9) =
      List.replicate 2 ([9],
        ⟨[.int, .object objectClass, .object objectClass], [.object objectClass]⟩) ∧
    c'.positions.find? ⟨2⟩ = some 9 ∧
    c'.frames.bind (List.lookup ⟨2⟩) = some ⟨narrowedLocals, [.object "java/lang/String"]⟩ ∧
    narrowedTypes.isAssignable "java/lang/String" objectClass = false := by
  have computed : ((reframe narrowedTypes "A" narrowedMethod narrowedCode true).toOption.any
      fun c' => (Reframe.prepare narrowedTypes "A" narrowedMethod narrowedCode).toOption.any
        fun p => p.settle.toOption.any fun done => p.analysis.flow.ranges = [] ∧
          ((List.range p.analysis.flow.size).filterMap (p.analysis.delivered done.states)).filter
              (fun d => d.1.contains 9) =
            List.replicate 2 ([9],
              ⟨[.int, .object objectClass, .object objectClass], [.object objectClass]⟩) ∧
          c'.positions.find? ⟨2⟩ = some 9 ∧
          c'.frames.bind (List.lookup ⟨2⟩) =
            some ⟨narrowedLocals, [.object "java/lang/String"]⟩ ∧
          narrowedTypes.isAssignable "java/lang/String" objectClass = false) = true := by
    decide +kernel
  obtain ⟨c', run, computed⟩ := exists_ok_of_any computed
  obtain ⟨p, made, computed⟩ := exists_ok_of_any computed
  obtain ⟨done, settled, computed⟩ := exists_ok_of_any computed
  exact ⟨c', p, done, run, made, settled, of_decide_eq_true computed⟩

end ClassWeave
