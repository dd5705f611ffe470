import Mathlib.Data.List.TakeWhile
import Mathlib.Tactic.Common
import ClassWeave.Proofs.Analysis.Reframe

/-!
# Wide values keep both slots

In the locals of a state a long or double is followed by `top`. A store over either half, a join
with narrow locals, a hint and the call of a constructor leave it so. Locals of this form come back
from their compressed form, and so a frame is about the same variables as its state.
-/

set_option autoImplicit false

namespace ClassWeave

def Regular (locals : List VType) : Prop :=
  ∀ (i : Nat) t, locals[i]? = some t → t.isWide = true → locals[i + 1]? = some .top

section

variable {t : VType} {locals rest : List VType}

theorem regular_nil : Regular [] := by
  intro i t found
  cases found

theorem regular_cons :
    Regular (t :: rest) ↔ (t.isWide = true → rest[0]? = some .top) ∧ Regular rest := by
  constructor
  · intro regular
    exact ⟨regular 0 t rfl, fun i u found => regular (i + 1) u found⟩
  · rintro ⟨first, others⟩ (_ | i) u found wide
    · cases found
      exact first wide
    · exact others i u found wide

instance decidableRegular : DecidablePred Regular
  | [] => .isTrue regular_nil
  | _ :: rest =>
    have := decidableRegular rest
    decidable_of_iff' _ regular_cons

theorem regular_append (first : Regular locals) (last : Regular rest) :
    Regular (locals ++ rest) := by
  induction locals with
  | nil => exact last
  | cons t locals ih =>
    obtain ⟨second, others⟩ := regular_cons.1 first
    refine regular_cons.2 ⟨fun wide => ?_, ih others⟩
    cases locals with
    | nil => cases second wide
    | cons u locals => exact second wide

theorem regular_tops (n : Nat) : Regular (List.replicate n .top) := by
  intro i t found wide
  rw [List.eq_of_mem_replicate (List.mem_of_getElem? found)] at wide
  cases wide

/-! ## Compressed and expanded -/

def spread (types : List VType) : List VType :=
  types.flatMap fun t => if t.isWide then [t, .top] else [t]

theorem expandLocals_eq (types : List VType) (n : Nat) :
    expandLocals types n = spread types ++ List.replicate (n - (spread types).length) .top := rfl

theorem spread_wide (wide : t.isWide = true) : spread (t :: rest) = t :: .top :: spread rest := by
  rw [spread, List.flatMap_cons, if_pos wide]
  rfl

theorem spread_narrow (narrow : ¬ t.isWide = true) : spread (t :: rest) = t :: spread rest := by
  rw [spread, List.flatMap_cons, if_neg narrow]
  rfl

theorem spread_tops (n : Nat) : spread (List.replicate n .top) = List.replicate n .top := by
  induction n with
  | zero => rfl
  | succ n ih => rw [List.replicate_succ, spread_narrow (by decide), ih]

theorem regular_spread (types : List VType) : Regular (spread types) := by
  induction types with
  | nil => exact regular_nil
  | cons t rest ih =>
    by_cases wide : t.isWide = true
    · rw [spread_wide wide]
      exact regular_cons.2 ⟨fun _ => rfl, regular_cons.2 ⟨nofun, ih⟩⟩
    · rw [spread_narrow wide]
      exact regular_cons.2 ⟨fun h => absurd h wide, ih⟩

theorem regular_expandLocals (types : List VType) (n : Nat) : Regular (expandLocals types n) :=
  regular_append (regular_spread types) (regular_tops _)

theorem spread_dropSecondSlots (regular : Regular locals) :
    spread (dropSecondSlots locals) = locals := by
  fun_induction dropSecondSlots locals with
  | case1 => rfl
  | case2 t =>
    refine spread_narrow fun wide => ?_
    cases (regular_cons.1 regular).1 wide
  | case3 t u rest wide ih =>
    obtain ⟨second, others⟩ := regular_cons.1 regular
    rw [spread_wide wide, ih (regular_cons.1 others).2, Option.some.inj (second wide)]
  | case4 t u rest narrow ih => rw [spread_narrow narrow, ih (regular_cons.1 regular).2]

theorem exists_dropTops (types : List VType) :
    ∃ n, types = dropTops types ++ List.replicate n .top := by
  have each : ∀ t ∈ types.reverse.takeWhile (· == .top), t = .top := by
    intro t mem
    simpa using List.mem_takeWhile_imp mem
  have whole := congrArg List.reverse (List.takeWhile_append_dropWhile
    (p := (· == VType.top)) (l := types.reverse))
  rw [List.reverse_append, List.reverse_reverse, List.eq_replicate_of_mem each,
    List.reverse_replicate] at whole
  exact ⟨_, whole.symm⟩

theorem expandLocals_compressLocals (regular : Regular locals) :
    expandLocals (compressLocals locals) locals.length = locals := by
  obtain ⟨n, whole⟩ := exists_dropTops (dropSecondSlots locals)
  have filled : spread (compressLocals locals) ++ List.replicate n .top = locals := by
    calc spread (compressLocals locals) ++ List.replicate n .top
      _ = spread (compressLocals locals ++ List.replicate n .top) := by
        rw [spread, spread, List.flatMap_append, ← spread, ← spread, spread_tops]
      _ = spread (dropSecondSlots locals) := by rw [compressLocals, ← whole]
      _ = locals := spread_dropSecondSlots regular
  have length := congrArg List.length filled
  rw [List.length_append, List.length_replicate] at length
  rw [expandLocals_eq, ← length, Nat.add_sub_cancel_left, filled]

theorem ofFrame_toFrame {s : State} (regular : Regular s.locals) :
    State.ofFrame s.toFrame s.locals.length = s := by
  rw [State.ofFrame, State.toFrame, expandLocals_compressLocals regular, List.reverse_reverse]

/-! ## Stores -/

theorem regular_set (regular : Regular locals) {slot : Nat} {value : VType}
    (before : ∀ i u, i + 1 = slot → locals[i]? = some u → u.isWide = true → value = .top)
    (behind : value.isWide = true → locals[slot + 1]? = some .top) :
    Regular (locals.set slot value) := by
  intro i u found wide
  by_cases here : slot = i
  · subst here
    have inside : slot < (locals.set slot value).length := (List.getElem?_eq_some_iff.1 found).1
    rw [List.length_set] at inside
    rw [List.getElem?_set_self inside] at found
    cases found
    rw [List.getElem?_set_ne (Nat.ne_of_lt (Nat.lt_succ_self slot))]
    exact behind wide
  · rw [List.getElem?_set_ne here] at found
    have next := regular i u found wide
    by_cases covered : slot = i + 1
    · -- the slot is the second one of `u`
      subst covered
      rw [List.getElem?_set_self (List.getElem?_eq_some_iff.1 next).1, before i u rfl found wide]
    · rwa [List.getElem?_set_ne covered]

theorem regular_set_top (regular : Regular locals) (slot : Nat) :
    Regular (locals.set slot .top) :=
  regular_set regular (fun _ _ _ _ _ => rfl) nofun

theorem regular_spoil (regular : Regular locals) (slot : Nat) : Regular (spoil locals slot) := by
  cases slot with
  | zero => exact regular
  | succ before =>
    rw [spoil]
    split
    · exact regular_set_top regular before
    · exact regular

theorem narrow_spoil {slot i : Nat} {u : VType} (before : i + 1 = slot)
    (found : (spoil locals slot)[i]? = some u) : ¬ u.isWide = true := by
  subst before
  rw [spoil] at found
  split at found
  · rw [List.getElem?_set] at found
    simp only [if_true] at found
    split at found
    · cases found
      decide
    · cases found
  · rename_i narrow
    rwa [found, Option.map_some, Option.getD_some] at narrow

theorem regular_store {s : State} (regular : Regular s.locals) (slot : Nat) (value : VType) :
    Regular (s.store slot value).locals := by
  have grown : Regular (s.grown slot value) := regular_append regular (regular_tops _)
  have spoiled := regular_spoil grown slot
  have room : (spoil (s.grown slot value) slot).length = max s.locals.length (slot + value.slots) :=
    (length_spoil ..).trans (s.length_grown slot value)
  rw [locals_store_eq]
  split
  · rename_i wide
    have two : value.slots = 2 := if_pos wide
    -- put in first, the value would have no `top` behind it yet
    rw [List.set_comm _ _ (Nat.ne_of_lt (Nat.lt_succ_self slot))]
    refine regular_set (regular_set_top spoiled _) (fun i u before found h => ?_) fun _ => ?_
    · rw [List.getElem?_set_ne (by omega)] at found
      exact absurd h (narrow_spoil before found)
    · exact List.getElem?_set_self (by omega)
  · rename_i narrow
    exact regular_set spoiled (fun i u before found h => absurd h (narrow_spoil before found))
      fun wide => absurd wide narrow

/-! ## Slot by slot -/

structure Narrowing (f : VType → VType) : Prop where
  top : f .top = .top
  wide : ∀ t, (f t).isWide = true → t.isWide = true

theorem regular_of_narrowing (regular : Regular locals) {f : Nat → VType → VType}
    (narrowing : ∀ i, Narrowing (f i)) {changed : List VType}
    (each : ∀ i, changed[i]? = locals[i]?.map (f i)) : Regular changed := by
  intro i t found wide
  rw [each] at found
  obtain ⟨u, old, rfl⟩ := Option.map_eq_some_iff.1 found
  have next := regular i u old ((narrowing i).wide u wide)
  rw [each, next, Option.map_some, (narrowing (i + 1)).top]

end

namespace Hierarchy

variable (h : Hierarchy)

theorem regular_meetEntries {f : VType → VType → VType} (narrowing : ∀ u, Narrowing (f · u))
    {mine : List VType} (regular : Regular mine) (theirs : List VType) :
    Regular (meetEntries f mine theirs) := by
  refine regular_of_narrowing regular (fun i => ?_) (getElem?_meetEntries f mine theirs)
  cases theirs[i]? with
  | none => exact ⟨rfl, fun _ wide => wide⟩
  | some u => exact narrowing u

theorem narrowing_joinTypes (u : VType) : Narrowing (h.joinTypes · u) := by
  refine ⟨h.joinTypes_top u, fun t wide => ?_⟩
  rcases h.joinTypes_cases t u with ⟨_, join⟩ | ⟨_, ⟨y, rfl⟩, join⟩ | ⟨_, _, join⟩ |
    ⟨x, y, rfl, rfl⟩ | join
  · rwa [join] at wide
  · rw [join] at wide
    cases wide
  · rwa [join] at wide
  · rw [joinTypes_object] at wide
    cases wide
  · rw [join] at wide
    cases wide

theorem narrowing_sharpenType (hinted : VType) : Narrowing (h.sharpenType · hinted) := by
  refine ⟨rfl, fun t wide => ?_⟩
  unfold sharpenType at wide
  split at wide
  · split at wide <;> cases wide
  · exact wide

theorem locals_joinStates (s t : State) :
    (h.joinStates s t).locals = meetEntries h.joinTypes s.locals t.entries := by
  have first (locals stack theirs : List VType) :
      (meetEntries h.joinTypes (locals ++ stack) theirs).take locals.length =
        meetEntries h.joinTypes locals theirs := by
    induction locals generalizing theirs with
    | nil => simp [meetEntries]
    | cons a locals ih =>
      cases theirs with
      | nil => exact List.take_left
      | cons b theirs => exact congrArg (h.joinTypes a b :: ·) (ih theirs)
  exact first s.locals s.stack.reverse t.entries

theorem regular_joinStates {s : State} (regular : Regular s.locals) (t : State) :
    Regular (h.joinStates s t).locals := by
  rw [locals_joinStates]
  exact regular_meetEntries h.narrowing_joinTypes regular t.entries

theorem regular_sharpen {s : State} (regular : Regular s.locals) (hint : State) :
    Regular (h.sharpen s hint).locals :=
  regular_meetEntries h.narrowing_sharpenType regular hint.locals

end Hierarchy

namespace MethodSite

variable {m : MethodSite} {index : Nat} {s after : State}

theorem regular_initialise (regular : Regular s.locals) {fresh : VType}
    (isFresh : fresh.isFresh = true) (ready : String) :
    Regular (initialise fresh ready s).locals := by
  refine regular_of_narrowing regular (fun _ => ⟨?_, fun t wide => ?_⟩) fun i => List.getElem?_map
  · refine if_neg fun same => ?_
    subst same
    cases isFresh
  · split at wide
    · cases wide
    · exact wide

theorem regular_call {desc : String} {receiver : Option MemberRef} (regular : Regular s.locals)
    (run : m.call index desc receiver s = .ok after) : Regular after.locals := by
  rcases locals_call run with same | ⟨fresh, ready, isFresh, same⟩
  · rwa [same]
  · rw [same]
    exact regular_initialise regular isFresh ready

end MethodSite

theorem Insn.Rewrites.regular {insn : Insn} {s : State} {locals : List VType}
    (rewrites : insn.Rewrites s locals) (regular : Regular s.locals) : Regular locals := by
  cases rewrites with
  | kept => exact regular
  | stored same store top => exact regular_store regular _ _
  | counted same => exact regular_store regular _ _
  | initialised isFresh ready => exact MethodSite.regular_initialise regular isFresh ready

namespace Analysis

variable {a : Analysis} {entry : State}

def regularity (a : Analysis) : a.Intake where
  Fit s := Regular s.locals
  CountsFor _ _ _ := True
  refl _ _ := trivial
  arrive i current incoming answer currentFit _ arrival := by
    refine ⟨?_, trivial, fun _ _ _ => trivial⟩
    rw [(arrive_ok arrival).2]
    have joined := a.hierarchy.regular_joinStates currentFit incoming
    cases a.hints[i]? with
    | none => exact joined
    | some hint => exact a.hierarchy.regular_sharpen joined hint

theorem closed_regularity (start : Regular entry.locals) : a.regularity.Closed entry where
  start := start
  caught _ _ _ _ fit _ _ _ := fit
  after _ _ _ _ _ fit run := (MethodSite.rewrites_execute run).regular fit

theorem regular_run (inside : a.flow.Inside) (start : Regular entry.locals) {maxLocals : Nat}
    {done : Progress} (run : a.run entry maxLocals = .ok done) {i : Nat} {s : State}
    (known : stateAt done.states i = some s) : Regular s.locals :=
  (Intake.invariant_run inside (closed_regularity start) run).fit i s known

end Analysis

namespace Reframe

variable {h : Hierarchy} {owner : String} {m : Method} {c : Code} {p : Prepared} {done : Progress}

theorem regular_entry (made : prepare h owner m c = .ok p) : Regular p.entry.locals := by
  obtain ⟨d, _, made⟩ := bind_ok_iff.1 made
  obtain ⟨flow, _, made⟩ := bind_ok_iff.1 made
  obtain ⟨targets, _, made⟩ := bind_ok_iff.1 made
  cases made
  exact regular_expandLocals _ _

theorem regular_settled (made : prepare h owner m c = .ok p) (settled : p.settle = .ok done)
    {i : Nat} {s : State} (known : stateAt done.states i = some s) : Regular s.locals :=
  Analysis.regular_run (inside_of_prepare made) (regular_entry made) settled known

theorem regular_framed (made : prepare h owner m c = .ok p) (settled : p.settle = .ok done)
    {x : Nat × State} (mem : x ∈ framedStates p done) : Regular x.2.locals := by
  rcases framedStates_cases mem with known | ⟨_, dead⟩
  · exact regular_settled made settled known
  · rw [dead]
    exact regular_nil

end Reframe

/-- Locals spread out from a frame are regular, whatever was in it. Stores, joins, hints and calls
keep them so, whatever is stored, arrives or is hinted. Regular locals come back from their
compressed form, and so, when a body is given frames, each of them expands to the very state of its
instruction. -/
theorem regular_frames (h : Hierarchy) :
    (∀ types n, Regular (expandLocals types n)) ∧
    (∀ s : State, Regular s.locals →
      (∀ slot value, Regular (s.store slot value).locals) ∧
      (∀ t, Regular (h.joinStates s t).locals) ∧
      (∀ hint, Regular (h.sharpen s hint).locals) ∧
      (∀ (m : MethodSite) index desc receiver after,
        m.call index desc receiver s = .ok after → Regular after.locals) ∧
      expandLocals (compressLocals s.locals) s.locals.length = s.locals) ∧
    ∀ owner m c c', reframe h owner m c true = .ok c' → ∃ p done frames,
      Reframe.prepare h owner m c = .ok p ∧ p.settle = .ok done ∧ c'.frames = some frames ∧
      (∀ i s, stateAt done.states i = some s → Regular s.locals) ∧
      List.Forall₂ (fun x g => Stands g.1 x.1 0 c'.insns ∧
        State.ofFrame g.2 x.2.locals.length = x.2) (Reframe.framedStates p done) frames := by
  refine ⟨regular_expandLocals, fun s regular => ⟨regular_store regular,
    h.regular_joinStates regular, h.regular_sharpen regular,
    fun m index desc receiver after run => MethodSite.regular_call regular run,
    expandLocals_compressLocals regular⟩, fun owner m c c' run => ?_⟩
  obtain ⟨p, made, run⟩ := bind_ok_iff.1 run
  obtain ⟨done, settled, run⟩ := bind_ok_iff.1 run
  cases run
  obtain ⟨frames, same, framed⟩ := Reframe.frames_withFrames made done
  refine ⟨p, done, frames, made, settled, same,
    fun i s known => Reframe.regular_settled made settled known, ?_⟩
  refine forall₂_imp_mem framed fun x mem g _ ⟨stands, type⟩ => ⟨stands, ?_⟩
  rw [type]
  exact ofFrame_toFrame (Reframe.regular_framed made settled mem)

/-- A long and a fresh object, of which another copy is on the stack. -/
def freshState : State := ⟨[.long, .top, .uninit ⟨0⟩], [.uninit ⟨0⟩]⟩

/-- On one of two paths an int is stored over the second slot of a long. -/
def halvingCode : Code :=
  Code.ofInsns [.var Opcode.iload 2, .jump Opcode.ifeq ⟨0⟩, .simple 0x03, .var Opcode.istore 1,
    .label ⟨0⟩, .simple Opcode.returnVoid]

def halvingMethod : Method := ⟨⟨9⟩, "halve", "(JI)V", some halvingCode, []⟩

theorem regular_frames_halvingCode :
    Regular freshState.locals ∧
    (freshState.store 1 .int).locals = [.top, .int, .uninit ⟨0⟩] ∧
    Regular (freshState.store 1 .int).locals ∧
    (∃ after, MethodSite.call ⟨"A", "A.m()V"⟩ 0 "()V" (some ⟨"B", "<init>", "()V"⟩) freshState =
      .ok after ∧ after.locals = [.long, .top, .object "B"] ∧ Regular after.locals) ∧
    expandLocals (compressLocals freshState.locals) 3 = freshState.locals ∧
    ∃ c' p done, reframe Hierarchy.empty "A" halvingMethod halvingCode true = .ok c' ∧
      c'.frames = some [(⟨0⟩, ⟨[.top, .top, .int], []⟩)] ∧
      Reframe.prepare Hierarchy.empty "A" halvingMethod halvingCode = .ok p ∧
      p.settle = .ok done ∧ ∀ i s, stateAt done.states i = some s → Regular s.locals := by
  have regular : Regular freshState.locals := by decide
  obtain ⟨_, steps, frames⟩ := regular_frames Hierarchy.empty
  obtain ⟨store, _, _, call, back⟩ := steps freshState regular
  have computed : ((reframe Hierarchy.empty "A" halvingMethod halvingCode true).toOption.any
      fun c' => c'.frames = some [(⟨0⟩, ⟨[.top, .top, .int], []⟩)]) = true := by
    decide +kernel
  obtain ⟨c', run, shown⟩ := exists_ok_of_any computed
  obtain ⟨p, done, _, made, settled, _, each, _⟩ := frames _ _ _ _ run
  have called : MethodSite.call ⟨"A", "A.m()V"⟩ 0 "()V" (some ⟨"B", "<init>", "()V"⟩)
      freshState = .ok ⟨[.long, .top, .object "B"], []⟩ := by
    decide +kernel
  exact ⟨regular, by decide, store 1 .int, ⟨_, called, rfl, call _ _ _ _ _ called⟩, back, c', p,
    done, run, of_decide_eq_true shown, made, settled, each⟩

end ClassWeave
