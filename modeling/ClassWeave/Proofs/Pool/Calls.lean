import Mathlib.Data.List.Forall2
import Mathlib.Tactic.Common
import ClassWeave.Proofs.Pool

/-!
# Pools in use

A pool starts out empty or read from bytes and goes through calls that intern constants, some of
which fail. After any number of them the slots alternate as they should, but for the one that the
unusable constant is given when it is interned. Each constant is found at the least index that holds
it, and an index that was given out leads to what it was given out for. Asking again gives the same
index and leaves the pool alone. Written and read again it is the same pool, as long as its texts
fit their length field and the unusable constant has no slot.
-/

set_option autoImplicit false

namespace ClassWeave

def Repeats {σ α : Type} [Growing σ] (m : GrowthOf σ α) : Prop :=
  Grows Limits.none m fun f a => m f = (.ok a, f)

theorem Repeats.bind {σ α β : Type} [Growing σ] {m : GrowthOf σ α} {k : α → GrowthOf σ β}
    (first : Repeats m) (second : ∀ a, Repeats (k a)) : Repeats (m >>= k) := by
  refine Grows.bind first fun a _ => (second a).mono fun f b hb ha => ?_
  show ExceptT.bindCont k (m f).1 (m f).2 = _
  rw [ha]
  exact hb

namespace Pool

def slotCells : Option Constant → List (Option Constant)
  | some c => c.cells
  | none => [none]

theorem slotCells_narrow {c : Constant} (narrow : c.isWide = false) :
    slotCells (some c) = [some c] := by
  simp [slotCells, Constant.cells, narrow]

theorem slotCells_wide {c : Constant} (wide : c.isWide = true) :
    slotCells (some c) = [some c, none] := by
  simp [slotCells, Constant.cells, wide]

section

variable {x : Option Constant} {n : Nat} {slots rest : List (Option Constant)}

theorem narrow_none : ∀ c : Constant, none = some c → c.isWide = false := nofun

theorem looseBehind_some (x : Option Constant) (c : Constant) (rest : List (Option Constant)) :
    looseBehind x (some c :: rest) = (looseBehind (some c) rest).map (· + 1) := by
  simp [looseBehind]

theorem looseBehind_wide {c : Constant} (wide : c.isWide = true)
    (rest : List (Option Constant)) :
    looseBehind (some c) (none :: rest) = (looseBehind none rest).map (· + 1) := by
  simp [looseBehind, wide]

theorem looseBehind_none (narrow : ∀ c, x = some c → c.isWide = false)
    (rest : List (Option Constant)) : looseBehind x (none :: rest) = some 0 := by
  cases x with
  | none => rfl
  | some c => simp [looseBehind, narrow c rfl]

theorem getElem?_of_looseBehind (found : looseBehind x slots = some n) :
    slots[n]? = some none := by
  induction slots generalizing x n with
  | nil => cases found
  | cons slot rest ih =>
    rw [looseBehind] at found
    split at found
    · rename_i loose
      cases found
      cases slot with
      | none => rfl
      | some c => simp at loose
    · obtain ⟨m, behind, rfl⟩ := Option.map_eq_some_iff.1 found
      exact ih behind

theorem looseBehind_append (found : looseBehind x slots = some n) :
    looseBehind x (slots ++ rest) = some n := by
  induction slots generalizing x n with
  | nil => cases found
  | cons slot slots ih =>
    rw [looseBehind] at found
    rw [List.cons_append, looseBehind]
    split at found
    · rename_i loose
      rw [if_pos loose]
      exact found
    · rename_i bound
      obtain ⟨m, behind, rfl⟩ := Option.map_eq_some_iff.1 found
      rw [if_neg bound, ih behind]
      rfl

end

section

variable {cs : List (Option Constant)} {x : Option Constant}

theorem looseBehind_cells_append (absent : none ∉ cs)
    (narrow : ∀ c, x = some c → c.isWide = false) (rest : List (Option Constant)) :
    ∃ y : Option Constant, (∀ c, y = some c → c.isWide = false) ∧
      looseBehind x (cs.flatMap slotCells ++ rest) =
        (looseBehind y rest).map (· + (cs.flatMap slotCells).length) := by
  induction cs generalizing x with
  | nil => exact ⟨x, narrow, by simp⟩
  | cons slot cs ih =>
    rw [List.flatMap_cons, List.append_assoc]
    cases slot with
    | none => exact absurd (List.mem_cons_self ..) absent
    | some c =>
      have absent := fun mem => absent (List.mem_cons_of_mem _ mem)
      cases hw : c.isWide with
      | false =>
        obtain ⟨y, last, same⟩ := ih absent (x := some c) fun d hd => Option.some.inj hd ▸ hw
        refine ⟨y, last, ?_⟩
        rw [slotCells_narrow hw, List.singleton_append, looseBehind_some, same, Option.map_map]
        rfl
      | true =>
        obtain ⟨y, last, same⟩ := ih absent (x := none) narrow_none
        refine ⟨y, last, ?_⟩
        rw [slotCells_wide hw, List.cons_append, List.singleton_append, looseBehind_some,
          looseBehind_wide hw, same, Option.map_map, Option.map_map]
        rfl

theorem looseBehind_concat (absent : none ∉ cs) (narrow : ∀ c, x = some c → c.isWide = false)
    (rest : List (Option Constant)) :
    looseBehind x (cs.flatMap slotCells ++ none :: rest) =
      some (cs.flatMap slotCells).length := by
  obtain ⟨y, last, same⟩ := looseBehind_cells_append absent narrow (none :: rest)
  rw [same, looseBehind_none last, Option.map_some, Nat.zero_add]

theorem looseBehind_cells (cs : List (Option Constant))
    (narrow : ∀ c, x = some c → c.isWide = false) :
    looseBehind x (cs.flatMap slotCells) = none ↔ none ∉ cs := by
  constructor
  · intro nothing mem
    obtain ⟨front, back, rfl, absent⟩ := List.eq_append_cons_of_mem mem
    rw [List.flatMap_append, List.flatMap_cons, slotCells, List.singleton_append,
      looseBehind_concat absent narrow] at nothing
    cases nothing
  · intro absent
    obtain ⟨y, _, same⟩ := looseBehind_cells_append absent narrow []
    rw [List.append_nil] at same
    rw [same]
    rfl

theorem full_slot_iff (narrow : ∀ c, x = some c → c.isWide = false) (c : Constant)
    (rest : List (Option Constant)) : (x :: some c :: rest)[0 + 1]? = some none ↔
      (∃ d, (x :: some c :: rest)[0]? = some (some d) ∧ d.isWide = true) ∨
        looseBehind x (some c :: rest) = some 0 := by
  rw [looseBehind_some]
  constructor
  · intro empty
    cases empty
  · rintro (⟨d, hd, wide⟩ | loose)
    · rw [narrow d (Option.some.inj hd)] at wide
      cases wide
    · obtain ⟨n, _, zero⟩ := Option.map_eq_some_iff.1 loose
      exact absurd zero (Nat.succ_ne_zero n)

/-- The slots of what was interned, behind one that takes a single slot: a slot is empty exactly
behind the first slot of a wide constant, and where the unusable constant is. -/
theorem empty_slot_iff (once : cs.count none ≤ 1) (narrow : ∀ c, x = some c → c.isWide = false)
    {i : Nat} (inside : i + 1 < (x :: cs.flatMap slotCells).length) :
    (x :: cs.flatMap slotCells)[i + 1]? = some none ↔
      (∃ c, (x :: cs.flatMap slotCells)[i]? = some (some c) ∧ c.isWide = true) ∨
        looseBehind x (cs.flatMap slotCells) = some i := by
  induction cs generalizing x i with
  | nil => simp at inside
  | cons slot cs ih =>
    rw [List.flatMap_cons] at inside ⊢
    cases slot with
    | none =>
      have absent : none ∉ cs := by
        rw [List.count_cons_self] at once
        exact List.count_eq_zero.1 (by omega)
      have behind : looseBehind none (cs.flatMap slotCells) = none :=
        (looseBehind_cells cs narrow_none).2 absent
      rw [slotCells, List.singleton_append] at inside ⊢
      rw [looseBehind_none narrow]
      cases i with
      | zero => simp
      | succ i =>
        have rest := ih (List.count_eq_zero.2 absent ▸ Nat.zero_le 1) (x := none)
          narrow_none (Nat.lt_of_succ_lt_succ inside)
        rw [behind] at rest
        simpa using rest
    | some c =>
      have once : cs.count none ≤ 1 := by simpa using once
      cases hw : c.isWide with
      | false =>
        rw [slotCells_narrow hw, List.singleton_append] at inside ⊢
        cases i with
        | zero => exact full_slot_iff narrow c _
        | succ i =>
          have rest := ih once (x := some c) (fun d hd => Option.some.inj hd ▸ hw)
            (Nat.lt_of_succ_lt_succ inside)
          rw [looseBehind_some]
          simpa using rest
      | true =>
        rw [slotCells_wide hw, List.cons_append, List.singleton_append] at inside ⊢
        cases i with
        | zero => exact full_slot_iff narrow c _
        | succ i =>
          cases i with
          | zero => exact ⟨fun _ => .inl ⟨c, rfl, hw⟩, fun _ => rfl⟩
          | succ i =>
            have rest := ih once (x := none) narrow_none
              (Nat.lt_of_succ_lt_succ (Nat.lt_of_succ_lt_succ inside))
            rw [looseBehind_some, looseBehind_wide hw]
            simpa using rest

end

theorem unusable?_eq {p : Pool} {x : Option Constant} {slots : List (Option Constant)}
    (h : p.toList = x :: slots) : p.unusable? = (looseBehind x slots).map (· + 1) := by
  rw [unusable?, h]

theorem unusable?_eq_none_iff {p : Pool} {cs : List (Option Constant)}
    (h : p.toList = none :: cs.flatMap slotCells) : p.unusable? = none ↔ none ∉ cs := by
  rw [unusable?_eq h, Option.map_eq_none_iff, looseBehind_cells cs narrow_none]

theorem get?_of_unusable? {p : Pool} {n : Nat} (h : p.unusable? = some n) :
    n ≠ 0 ∧ p.get? n = some none := by
  rw [Indexed.get?_eq]
  unfold unusable? at h
  split at h
  · cases h
  · rename_i x slots same
    obtain ⟨m, found, rfl⟩ := Option.map_eq_some_iff.1 h
    rw [same, List.getElem?_cons_succ]
    exact ⟨Nat.succ_ne_zero m, getElem?_of_looseBehind found⟩

theorem unusable?_of_grown {p q : Pool} (h : p.Grown q) {n : Nat}
    (known : p.unusable? = some n) : q.unusable? = some n := by
  obtain ⟨rest, more⟩ := h
  unfold unusable? at known
  split at known
  · cases known
  · rename_i x slots same
    obtain ⟨m, found, rfl⟩ := Option.map_eq_some_iff.1 known
    rw [same, List.cons_append] at more
    rw [unusable?_eq more.symm, looseBehind_append found]
    rfl

/-- How the slots of a pool go together, and where its constants are found. -/
structure Consistent (p : Pool) : Prop where
  first : p.get? 0 = some none
  empty_iff : ∀ i, i + 1 < p.size → (p.get? (i + 1) = some none ↔
    (∃ c, p.get? i = some (some c) ∧ c.isWide = true) ∨ p.unusable? = some (i + 1))
  size_le : p.size ≤ 65535
  find_iff : ∀ k i, p.find? k = some i ↔ ∃ c : Constant, c.key = k ∧ p.get? i = some (some c) ∧
    ∀ j < i, p.get? j ≠ some (some c)

theorem find?_key_iff {p : Pool} {k : List Nat} {i : Nat} :
    p.find? k = some i ↔ ∃ c : Constant, c.key = k ∧ p.get? i = some (some c) ∧
      ∀ j < i, p.get? j ≠ some (some c) := by
  simp only [Indexed.get?_eq]
  rw [Indexed.find?_eq, List.findIdx?_eq_some_iff_getElem]
  constructor
  · rintro ⟨inside, found, least⟩
    obtain ⟨c, slot, hk⟩ := Option.map_eq_some_iff.1 (beq_iff_eq.1 found)
    refine ⟨c, hk, ?_, fun j hj same => ?_⟩
    · rw [List.getElem?_eq_getElem inside, slot]
    · obtain ⟨hj', same⟩ := List.getElem?_eq_some_iff.1 same
      refine least j hj ?_
      rw [same, ← hk]
      exact beq_self_eq_true _
  · rintro ⟨c, rfl, slot, least⟩
    obtain ⟨inside, slot⟩ := List.getElem?_eq_some_iff.1 slot
    refine ⟨inside, ?_, fun j hj same => ?_⟩
    · rw [slot]
      exact beq_self_eq_true _
    · have hj' := Nat.lt_trans hj inside
      obtain ⟨d, other, hd⟩ := Option.map_eq_some_iff.1 (beq_iff_eq.1 same)
      refine least j hj ?_
      rw [List.getElem?_eq_getElem hj', other, Constant.key_injective hd]

/-- A pool as calls leave it: well formed, but for one slot of the unusable constant. -/
structure InUse (p : Pool) : Prop where
  slots : ∃ cs : List (Option Constant), cs.count none ≤ 1 ∧ p.toList = none :: cs.flatMap slotCells
  size_le : p.toList.length ≤ 65535

section

variable {limits : Limits} {p : Pool} {c : Constant}

theorem WellFormed.inUse (hp : WellFormed limits p) : InUse p := by
  obtain ⟨cs, hcs⟩ := hp.slots
  refine ⟨⟨cs.map some, ?_, ?_⟩, hp.size_le⟩
  · rw [List.count_eq_zero.2 (by simp)]
    exact Nat.zero_le 1
  · rw [hcs, List.flatMap_map]
    rfl

theorem exists_eq_map_some {cs : List (Option Constant)} (absent : none ∉ cs) :
    ∃ ds : List Constant, ds.map some = cs := by
  induction cs with
  | nil => exact ⟨[], rfl⟩
  | cons slot cs ih =>
    obtain ⟨ds, rfl⟩ := ih fun mem => absent (List.mem_cons_of_mem _ mem)
    cases slot with
    | none => exact absurd (List.mem_cons_self ..) absent
    | some c => exact ⟨c :: ds, rfl⟩

theorem InUse.wellFormed (hp : InUse p) (usable : p.unusable? = none) :
    WellFormed Limits.none p := by
  obtain ⟨cs, _, hcs⟩ := hp.slots
  obtain ⟨ds, rfl⟩ := exists_eq_map_some ((unusable?_eq_none_iff hcs).1 usable)
  refine ⟨⟨ds, ?_⟩, hp.size_le, fun _ _ => trivial⟩
  rw [hcs, List.flatMap_map]
  rfl

theorem WellFormed.unusable? (hp : WellFormed limits p) : p.unusable? = none := by
  obtain ⟨cs, hcs⟩ := hp.slots
  have same : cs.flatMap Constant.cells = (cs.map some).flatMap slotCells := by
    rw [List.flatMap_map]
    rfl
  rw [same] at hcs
  exact (unusable?_eq_none_iff hcs).2 (by simp)

theorem InUse.first (hp : InUse p) : p.get? 0 = some none := by
  obtain ⟨cs, _, hcs⟩ := hp.slots
  rw [Indexed.get?_eq, hcs, List.getElem?_cons_zero]

theorem InUse.consistent (hp : InUse p) : Consistent p where
  first := hp.first
  empty_iff i inside := by
    obtain ⟨cs, once, hcs⟩ := hp.slots
    rw [Indexed.size_eq, hcs] at inside
    rw [unusable?_eq hcs]
    simpa [Indexed.get?_eq, hcs] using
      empty_slot_iff once (x := none) narrow_none inside
  size_le := Indexed.size_eq p ▸ hp.size_le
  find_iff k i := find?_key_iff

theorem InUse.append (hp : InUse p) (fits : p.toList.length + Pool.slots c ≤ 65535) :
    InUse (p.append c) := by
  obtain ⟨cs, once, hcs⟩ := hp.slots
  refine ⟨⟨cs ++ [some c], by simpa using once, ?_⟩, ?_⟩
  · rw [toList_append, hcs]
    simp [slotCells]
  · rw [toList_append, List.length_append, Constant.length_cells]
    exact fits

theorem InUse.push_none (hp : InUse p) (absent : p.unusable? = none)
    (fits : p.toList.length + 1 ≤ 65535) : InUse (p.push none) := by
  obtain ⟨cs, _, hcs⟩ := hp.slots
  refine ⟨⟨cs ++ [none], ?_, ?_⟩, by simpa using fits⟩
  · simp [List.count_eq_zero.2 ((unusable?_eq_none_iff hcs).1 absent)]
  · rw [Indexed.toList_push, hcs]
    simp [slotCells]

theorem InUse.unusable?_push (hp : InUse p) (absent : p.unusable? = none) :
    Pool.unusable? (p.push none) = some p.toList.length := by
  obtain ⟨cs, _, hcs⟩ := hp.slots
  have slots : (p.push none).toList = none :: (cs.flatMap slotCells ++ [none]) := by
    rw [Indexed.toList_push, hcs, List.cons_append]
  rw [unusable?_eq slots,
    looseBehind_concat ((unusable?_eq_none_iff hcs).1 absent) narrow_none, hcs]
  rfl

end

section

variable [Growing Pool] [Interning Limits.none]

theorem repeats_intern (c : Constant) : Repeats (intern c) := by
  refine (Interning.grows fun _ _ => trivial).mono fun f i found => ?_
  show intern c f = (.ok i, f)
  unfold intern
  rw [found.2]
  simp

theorem repeats_internUtf8 (text : String) : Repeats (internUtf8 text) := repeats_intern _

theorem repeats_internClass (name : String) : Repeats (internClass name) :=
  (repeats_intern _).bind fun _ => repeats_intern _

theorem repeats_internString (text : String) : Repeats (internString text) :=
  (repeats_intern _).bind fun _ => repeats_intern _

theorem repeats_internNameAndType (name desc : String) :
    Repeats (internNameAndType name desc) :=
  (repeats_intern _).bind fun _ => (repeats_intern _).bind fun _ => repeats_intern _

theorem repeats_internField (m : MemberRef) : Repeats (internField m) :=
  (repeats_internClass _).bind fun _ =>
    (repeats_internNameAndType _ _).bind fun _ => repeats_intern _

theorem repeats_internMethod (m : MemberRef) (ofInterface : Bool) :
    Repeats (internMethod m ofInterface) :=
  (repeats_internClass _).bind fun _ =>
    (repeats_internNameAndType _ _).bind fun _ => repeats_intern _

end

/-- A request for an index. -/
inductive Call where
  | constant (slot : Option Constant)
  | utf8 (text : String)
  | className (name : String)
  | string (text : String)
  | nameAndType (name desc : String)
  | field (m : MemberRef)
  | method (m : MemberRef) (ofInterface : Bool)

namespace Call

def run : Call → Growth UInt16
  | .constant slot => internSlot slot
  | .utf8 text => internUtf8 text
  | .className name => internClass name
  | .string text => internString text
  | .nameAndType name desc => internNameAndType name desc
  | .field m => internField m
  | .method m ofInterface => internMethod m ofInterface

def Answered (p : Pool) (i : UInt16) : Call → Prop
  | .constant (some c) => p.get i = .ok c
  | .constant none => p.unusable? = some i.toNat
  | .utf8 text => p.utf8 i = .ok text
  | .className name => p.className i = .ok name
  | .string text => ∃ j, p.get i = .ok (.string j) ∧ p.utf8 j = .ok text
  | .nameAndType name desc => p.nameAndType i = .ok (name, desc)
  | .field m => p.member i = .ok (.field, m)
  | .method m ofInterface => p.member i = .ok (if ofInterface then .interfaceMethod else .method, m)

section

variable [Growing Pool] [Interning Limits.none] {call : Call}

theorem grows_run_of_ne (usable : call ≠ .constant none) :
    Grows Limits.none call.run fun f i => call.Answered f i := by
  cases call with
  | constant slot =>
    cases slot with
    | none => exact absurd rfl usable
    | some c => exact (grows_intern fun _ _ => trivial).mono fun f i h => h.2
  | utf8 text => exact (grows_internUtf8 trivial).mono fun f i h => h.2
  | className name => exact (grows_internClass trivial).mono fun f i h => h.2
  | string text => exact grows_internString trivial
  | nameAndType name desc => exact grows_internNameAndType trivial trivial
  | field m => exact grows_internField ⟨trivial, trivial, trivial⟩
  | method m ofInterface => exact grows_internMethod ⟨trivial, trivial, trivial⟩ ofInterface

theorem repeats_run_of_ne (usable : call ≠ .constant none) : Repeats call.run := by
  cases call with
  | constant slot =>
    cases slot with
    | none => exact absurd rfl usable
    | some c => exact repeats_intern c
  | utf8 text => exact repeats_internUtf8 text
  | className name => exact repeats_internClass name
  | string text => exact repeats_internString text
  | nameAndType name desc => exact repeats_internNameAndType name desc
  | field m => exact repeats_internField m
  | method m ofInterface => exact repeats_internMethod m ofInterface

end

theorem exists_slot {call : Call} {p : Pool} {i : UInt16} (h : call.Answered p i) :
    ∃ slot, p.get? i.toNat = some slot := by
  have constant {c : Constant} (found : p.get i = .ok c) : ∃ slot, p.get? i.toNat = some slot :=
    ⟨_, get_eq_ok.1 found⟩
  cases call with
  | constant slot =>
    cases slot with
    | none => exact ⟨none, (get?_of_unusable? h).2⟩
    | some c => exact constant h
  | utf8 text => exact constant (utf8_eq_ok.1 h)
  | className name =>
    obtain ⟨j, hj, _⟩ := className_eq_ok.1 h
    exact constant hj
  | string text =>
    obtain ⟨j, hj, _⟩ := h
    exact constant hj
  | nameAndType name desc =>
    obtain ⟨j, k, hj, _⟩ := nameAndType_eq_ok.1 h
    exact constant hj
  | field m =>
    obtain ⟨j, k, hj, _⟩ := member_eq_ok.1 h
    exact constant hj
  | method m ofInterface =>
    obtain ⟨j, k, hj, _⟩ := member_eq_ok.1 h
    exact constant hj

end Call

/-- The pool after some calls, whether or not they succeed. -/
def after (p : Pool) (calls : List Call) : Pool := calls.foldl (fun p call => (call.run p).2) p

theorem wellFormed_after {p : Pool} (hp : WellFormed Limits.none p) {calls : List Call}
    (usable : .constant none ∉ calls) : WellFormed Limits.none (p.after calls) := by
  induction calls generalizing p with
  | nil => exact hp
  | cons call calls ih =>
    obtain ⟨here, behind⟩ := List.ne_and_not_mem_of_not_mem_cons usable
    exact ih (Call.grows_run_of_ne here.symm p _ _ hp rfl).1 behind

/-- A pool before its first call. -/
inductive Fresh : Pool → Prop where
  | empty : Fresh empty
  | read {p : Pool} (c c' : Cursor) (h : read c = .ok (p, c')) : Fresh p

theorem Fresh.wellFormed {p : Pool} (h : Fresh p) : WellFormed Limits.none p := by
  cases h with
  | empty => exact wellFormed_empty
  | read c c' h => exact yields_read c p c' h

theorem inUse_empty : InUse empty := Fresh.empty.wellFormed.inUse

section

local instance growingInUse : Growing Pool where
  Within _ := InUse
  Extends := Indexed.Grown
  refl := growing.refl
  trans := growing.trans

instance interningInUse {limits : Limits} : Interning limits where
  grows {c} _ := by
    intro p r q hp run
    have step : (intern c p).2 = q := congrArg Prod.snd run
    have answer : ∀ i, r = .ok i → ∀ f, Extends q f →
        i ≠ 0 ∧ f.find? c.key = some i.toNat := by
      rintro i rfl f later
      obtain ⟨ne, found⟩ := find?_of_intern hp.first hp.size_le run
      exact ⟨ne, Indexed.Grown.find? later found⟩
    rcases intern_cases c p with same | ⟨more, fits⟩
    · cases step.symm.trans same
      exact ⟨hp, Growing.refl p, answer⟩
    · cases step.symm.trans more
      exact ⟨InUse.append hp fits, extends_append p c, answer⟩

theorem grows_internUnusable :
    Grows Limits.none internUnusable fun f i => f.unusable? = some i.toNat := by
  intro p r q hp run
  have hp : InUse p := hp
  have cast {n : Nat} (le : n ≤ 65535) : (UInt16.ofNat n).toNat = n :=
    UInt16.toNat_ofNat_of_lt' (show n < 65536 by omega)
  unfold internUnusable at run
  split at run
  · rename_i n known
    cases run
    refine ⟨hp, Growing.refl p, fun i hi f later => ?_⟩
    cases hi
    have inside := (get?_of_unusable? known).2
    rw [Indexed.get?_eq] at inside
    have := hp.size_le
    have := (List.getElem?_eq_some_iff.1 inside).1
    rw [cast (by omega)]
    exact unusable?_of_grown later known
  · rename_i absent
    dsimp only at run
    rw [Indexed.size_eq] at run
    split at run
    · cases run
      exact ⟨hp, Growing.refl p, fun i hi => nomatch hi⟩
    · rename_i fits
      cases run
      refine ⟨hp.push_none absent (by omega), Indexed.grown_push p none, fun i hi f later => ?_⟩
      cases hi
      rw [cast hp.size_le]
      exact unusable?_of_grown later (hp.unusable?_push absent)

theorem Call.grows_run (call : Call) :
    Grows Limits.none call.run fun f i => call.Answered f i := by
  by_cases usable : call = .constant none
  · subst usable
    exact grows_internUnusable
  · exact grows_run_of_ne usable

theorem Call.repeats_run (call : Call) : Repeats call.run := by
  by_cases usable : call = .constant none
  · subst usable
    refine grows_internUnusable.mono fun f i h => ?_
    show internUnusable f = (.ok i, f)
    unfold internUnusable
    rw [h]
    simp
  · exact repeats_run_of_ne usable

theorem inUse_after {p : Pool} (hp : InUse p) (calls : List Call) :
    InUse (p.after calls) ∧ p.Grown (p.after calls) := by
  induction calls generalizing p with
  | nil => exact ⟨hp, Indexed.Grown.refl p⟩
  | cons call calls ih =>
    obtain ⟨hq, grown, _⟩ := call.grows_run p _ _ hp rfl
    obtain ⟨last, rest⟩ := ih hq
    exact ⟨last, Indexed.Grown.trans grown rest⟩

/-- Whatever calls went before: the slots are in order, no further call loses an entry, and one that
succeeds gives out an index that leads to what was asked for from then on; asked again, it gives
the same index and adds nothing. The unusable constant has no slot before it is asked for. -/
theorem consistent_after {start : Pool} (fresh : Fresh start) (calls : List Call) :
    (start.after calls).Consistent ∧
    (.constant none ∉ calls → (start.after calls).unusable? = none) ∧ ∀ call : Call,
      (start.after calls).toList <+: (call.run (start.after calls)).2.toList ∧
      ∀ i q, call.run (start.after calls) = (.ok i, q) → ∀ more,
        call.Answered (q.after more) i ∧
        (∃ slot, q.get? i.toNat = some slot ∧ (q.after more).get? i.toNat = some slot) ∧
        call.run (q.after more) = (.ok i, q.after more) := by
  have before := (inUse_after fresh.wellFormed.inUse calls).1
  refine ⟨before.consistent, fun usable => (wellFormed_after fresh.wellFormed usable).unusable?,
    fun call => ⟨?_, fun i q run more => ?_⟩⟩
  · exact (call.grows_run _ _ _ before rfl).2.1
  · obtain ⟨hq, _, answered⟩ := call.grows_run _ _ _ before run
    obtain ⟨_, _, repeated⟩ := call.repeats_run _ _ _ before run
    have later := (inUse_after hq more).2
    obtain ⟨slot, here⟩ := Call.exists_slot (answered i rfl q (Indexed.Grown.refl q))
    exact ⟨answered i rfl _ later, ⟨slot, here, later.get? here⟩, repeated i rfl _ later⟩

end

/-- A stored pool with one text twice and a long between them. -/
def twiceStored : Bytes :=
  [0, 6, 1, 0, 1, 97, 5, 0, 0, 0, 0, 0, 0, 0, 9, 1, 0, 1, 97, 7, 0, 4]

/-- The class that the stored pool names through the second of the two texts is not the one that a
request leads to, which names the first. -/
theorem consistent_twiceStored : ∃ p c q, read (Cursor.start twiceStored) = .ok (p, c) ∧
    p.Consistent ∧ p.className 5 = .ok "a" ∧ (Call.className "a").run p = (.ok 6, q) ∧
    (Call.className "a").Answered (q.after [.utf8 "b"]) 6 ∧
    (Call.className "a").run (q.after [.utf8 "b"]) = (.ok 6, q.after [.utf8 "b"]) := by
  have computed : (match read (Cursor.start twiceStored) with
      | .error _ => false
      | .ok (p, _) => p.className 5 = .ok "a" ∧
        ((Call.className "a").run p).1 = .ok 6 : Bool) = true := by
    decide +kernel
  split at computed
  · cases computed
  rename_i p c stored
  obtain ⟨named, requested⟩ := of_decide_eq_true computed
  obtain ⟨consistent, _, calls⟩ := consistent_after (.read _ _ stored) []
  have run : (Call.className "a").run p = (.ok 6, ((Call.className "a").run p).2) :=
    Prod.ext requested rfl
  obtain ⟨answered, _, repeated⟩ := (calls (.className "a")).2 6 _ run [.utf8 "b"]
  exact ⟨p, c, _, stored, consistent, named, run, answered, repeated⟩

/-- Interned in an empty pool, the unusable constant takes a slot that belongs to no wide constant.
And what an index of a class leads to can change, when the text that it names comes later. -/
theorem inconsistent_empty :
    (¬ ∀ (calls : List Call) (i : Nat), i + 1 < (empty.after calls).size →
      ((empty.after calls).get? (i + 1) = some none ↔
        ∃ c, (empty.after calls).get? i = some (some c) ∧ c.isWide = true)) ∧
    ¬ ∀ (calls more : List Call) (call : Call) (i : UInt16) (q : Pool),
      call.run (empty.after calls) = (.ok i, q) → (q.after more).className i = q.className i := by
  constructor
  · intro always
    obtain ⟨c, wide, _⟩ := (always [.constant none] 0 (by decide +kernel)).1 (by decide +kernel)
    have first : (empty.after [.constant none]).get? 0 = some none := by decide +kernel
    cases first.symm.trans wide
  · intro always
    have answer : ((Call.constant (some (.type 2))).run empty).1 = .ok 1 := by decide +kernel
    exact absurd (always [] [.utf8 "a"] _ _ _ (Prod.ext answer rfl)) (by decide +kernel)

/-- A pool in use is read back slot for slot, and with it where its constants are found, from
exactly the bytes that are written of it, unless a slot was given to the unusable constant. -/
theorem read_encode_after {start : Pool} (fresh : Fresh start) (calls : List Call)
    (usable : (start.after calls).unusable? = none)
    (short : ∀ text, some (.utf8 text) ∈ (start.after calls).toList →
      (ModifiedUtf8.encode text).length ≤ 65535) (offset : Nat) (rest : Bytes) :
    ∃ p, read.run ⟨offset, (start.after calls).encode ++ rest⟩ =
        .ok (p, ⟨offset + (start.after calls).encode.length, rest⟩) ∧
      p = start.after calls ∧ (∀ i, p.get? i = (start.after calls).get? i) ∧
      ∀ k, p.find? k = (start.after calls).find? k := by
  have before := (inUse_after fresh.wellFormed.inUse calls).1.wellFormed usable
  have fits : ∀ c, some c ∈ (start.after calls).toList → c.Short := by
    intro c mem
    cases c with
    | utf8 text => exact Nat.lt_succ_of_le (short text mem)
    | _ => exact True.intro
  refine ⟨start.after calls, readsAt_read before fits rest, rfl, fun i => rfl, fun k => rfl⟩

/-- A long in two slots, a text with a zero and a character beyond sixteen bits, and a constant that
is there twice already. -/
theorem read_encode_twiceStored : ∃ start c p, read (Cursor.start twiceStored) = .ok (start, c) ∧
    start.after [.string "\x00🎈", .className "a", .constant (some (.double 5))] = p ∧
    p.size = 11 ∧ read.run ⟨8, p.encode ++ [1, 0]⟩ = .ok (p, ⟨8 + p.encode.length, [1, 0]⟩) := by
  have computed : (match read (Cursor.start twiceStored) with
      | .error _ => false
      | .ok (start, _) =>
        (start.after [.string "\x00🎈", .className "a", .constant (some (.double 5))]).toList =
          [none, some (.utf8 "a"), some (.long 9), none, some (.utf8 "a"), some (.type 4),
            some (.utf8 "\x00🎈"), some (.string 6), some (.type 1), some (.double 5), none] :
        Bool) = true := by
    decide +kernel
  split at computed
  · cases computed
  rename_i start c stored
  have slots := of_decide_eq_true computed
  obtain ⟨p, again, rfl, _⟩ := read_encode_after (.read _ _ stored)
    [.string "\x00🎈", .className "a", .constant (some (.double 5))] (by
      rw [unusable?_eq slots]
      rfl) (fun text mem => by
      simp only [slots, List.mem_cons, Option.some.injEq, Constant.utf8.injEq, reduceCtorEq,
        List.not_mem_nil, or_false, false_or] at mem
      rcases mem with rfl | rfl | rfl <;> decide) 8 [1, 0]
  refine ⟨start, c, _, stored, rfl, ?_, again⟩
  rw [Indexed.size_eq, slots]
  rfl

/-- The slot of the unusable constant is counted, but nothing is written of it. -/
theorem unread_unusable : ¬ ∀ (calls : List Call) (offset : Nat) (rest : Bytes),
    (∀ text, some (.utf8 text) ∈ (empty.after calls).toList →
      (ModifiedUtf8.encode text).length ≤ 65535) →
    ∃ p c, read.run ⟨offset, (empty.after calls).encode ++ rest⟩ = .ok (p, c) := by
  intro always
  have nothing : (empty.after [.constant none]).toList = [none, none] := by decide +kernel
  obtain ⟨p, c, again⟩ := always [.constant none] 0 [] fun text mem => by simp [nothing] at mem
  have fails : (read.run ⟨0, (empty.after [.constant none]).encode ++ []⟩).toOption.isNone = true :=
    by decide +kernel
  rw [again] at fails
  cases fails

end Pool

end ClassWeave
