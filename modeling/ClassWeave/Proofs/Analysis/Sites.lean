import Mathlib.Tactic.Common
import ClassWeave.ClassFile.Decode
import ClassWeave.Proofs.Analysis.Reframe
import ClassWeave.Proofs.Analysis.Types

/-!
# Fresh objects and the places they come from

An uninitialised type names the place of the `new` that made it. No instruction but `new` brings
such a type into a state, and neither a join nor a hint does. So whatever the labels of the `new`
instructions have in common, all fresh objects in the states of a body have it.
-/

set_option autoImplicit false

namespace ClassWeave

variable {P : Label → Prop}

def VType.Sited (P : Label → Prop) (t : VType) : Prop := ∀ l, t = .uninit l → P l

theorem VType.sited_object (name : String) : (VType.object name).Sited P := nofun

theorem VType.sited_null : VType.null.Sited P := nofun

theorem VType.sited_ofFieldType (t : FieldType) : (VType.ofFieldType t).Sited P := by
  intro l same
  unfold ofFieldType at same
  split at same <;> cases same

structure State.Sited (P : Label → Prop) (s : State) : Prop where
  locals : ∀ t ∈ s.locals, t.Sited P
  stack : ∀ t ∈ s.stack, t.Sited P

theorem State.sited_iff {s : State} : s.Sited P ↔ s.Each (VType.Sited P) :=
  ⟨fun h => ⟨h.locals, h.stack⟩, fun h => ⟨h.locals, h.stack⟩⟩

namespace MethodSite

variable {m : MethodSite} {index : Nat} {s after : State}

theorem sited_of_map {x : Except WriteError FieldType} {t : VType}
    (h : x.map VType.ofFieldType = .ok t) : t.Sited P := by
  cases x with
  | error e => cases h
  | ok u =>
    cases h
    exact VType.sited_ofFieldType u

theorem sited_elementType {array element : VType} (h : elementType array = .ok element) :
    element.Sited P := by
  unfold elementType at h
  split at h
  · split at h
    · exact sited_of_map h
    · cases h
      exact VType.sited_null
  · cases h
    exact VType.sited_null

theorem sited_loadableType {value : Loadable} {t : VType} (h : loadableType value = .ok t) :
    t.Sited P := by
  cases value with
  | dynamic name desc handle args => exact sited_of_map h
  | _ =>
    cases h
    nofun

theorem sited_brings {insn : Insn} {t : VType} (mem : t ∈ m.brings insn) : t.Sited P := by
  have returned {desc : String} (mem : t ∈ brings.returned desc) : t.Sited P := by
    obtain ⟨r, _, rfl⟩ := List.mem_map.1 mem
    exact VType.sited_ofFieldType r
  cases insn with
  | intOp op operand =>
    obtain ⟨name, _, rfl⟩ := List.mem_map.1 mem
    exact VType.sited_object name
  | typeOp op name =>
    rcases List.mem_pair.1 mem with rfl | rfl
    · exact VType.sited_object _
    · exact VType.sited_object _
  | field op member =>
    obtain ⟨u, _, rfl⟩ := List.mem_map.1 mem
    exact VType.sited_ofFieldType u
  | method op member ofInterface =>
    rcases List.mem_append.1 mem with mem | mem
    · rcases List.mem_pair.1 mem with rfl | rfl
      · exact VType.sited_object _
      · exact VType.sited_object _
    · exact returned mem
  | callSite name desc b => exact returned mem
  | ldc value =>
    cases loaded : loadableType value with
    | error e => simp [brings, loaded, Except.toOption] at mem
    | ok u =>
      have same : t = u := by simpa [brings, loaded, Except.toOption] using mem
      rw [same]
      exact sited_loadableType loaded
  | newArrays name dims =>
    rw [List.mem_singleton.1 mem]
    exact VType.sited_object name
  | _ => cases mem

theorem sited_execute (h : s.Sited P) {site : Option Label} (held : ∀ l, site = some l → P l)
    {insn : Insn} (run : m.execute index site insn s = .ok after) : after.Sited P := by
  refine State.sited_iff.2 (each_execute (State.sited_iff.1 h) (fun t plain l same => ?_)
    (fun array t _ => sited_elementType) (fun l found l' same => ?_) (fun t => sited_brings) run)
  · rw [same] at plain
    cases plain
  · cases same
    exact held l found

end MethodSite

namespace Hierarchy

variable (h : Hierarchy)

theorem sited_joinTypes {a b : VType} (ha : a.Sited P) (hb : b.Sited P) :
    (h.joinTypes a b).Sited P := by
  unfold joinTypes
  split
  · exact ha
  · split
    · exact hb
    · exact ha
    · exact VType.sited_object _
    · nofun

theorem sited_sharpenType {merged hinted : VType} (hm : merged.Sited P) :
    (h.sharpenType merged hinted).Sited P := by
  unfold sharpenType
  split
  · split
    · exact VType.sited_object _
    · exact hm
  · exact hm

theorem sited_joinStates {current incoming : State} (hc : current.Sited P)
    (hi : incoming.Sited P) : (h.joinStates current incoming).Sited P := by
  have entries : ∀ s : State, s.Sited P → ∀ t ∈ s.entries, t.Sited P := by
    intro s hs t mem
    rcases List.mem_append.1 mem with mem | mem
    · exact hs.locals t mem
    · exact hs.stack t (List.mem_reverse.1 mem)
  have met := mem_meetEntries (f := h.joinTypes) (fun a ha b hb =>
    h.sited_joinTypes (entries current hc a ha) (entries incoming hi b hb)) (entries current hc)
  exact ⟨fun t mem => met t (List.mem_of_mem_take mem),
    fun t mem => met t (List.mem_of_mem_drop (List.mem_reverse.1 mem))⟩

theorem sited_sharpen {s hint : State} (hs : s.Sited P) : (h.sharpen s hint).Sited P := by
  refine ⟨mem_meetEntries (fun a ha _ _ => h.sited_sharpenType (hs.locals a ha)) hs.locals, ?_⟩
  unfold sharpen
  dsimp only
  split
  · exact mem_meetEntries (fun a ha _ _ => h.sited_sharpenType (hs.stack a ha)) hs.stack
  · exact hs.stack

end Hierarchy

namespace Analysis

variable {a : Analysis} {entry : State}

def siting (a : Analysis) (P : Label → Prop) : a.Intake where
  Fit := State.Sited P
  CountsFor _ _ _ := True
  refl _ _ := trivial
  arrive i current incoming answer currentFit incomingFit arrival := by
    refine ⟨?_, trivial, fun _ _ _ => trivial⟩
    rw [(arrive_ok arrival).2]
    have joined := a.hierarchy.sited_joinStates currentFit incomingFit
    cases a.hints[i]? with
    | none => exact joined
    | some hint => exact a.hierarchy.sited_sharpen joined

theorem closed_siting (start : entry.Sited P) (held : ∀ (i : Nat) l, a.sites[i]? = some l → P l) :
    (a.siting P).Closed entry where
  start := start
  caught _ before _ _ fit r _ _ := by
    refine ⟨fit.locals, fun t mem => ?_⟩
    rw [List.mem_singleton.1 mem]
    exact VType.sited_object _
  after i _ _ _ _ fit run := MethodSite.sited_execute fit (held i) run

theorem sited_run (inside : a.flow.Inside) (start : entry.Sited P)
    (held : ∀ (i : Nat) l, a.sites[i]? = some l → P l) {maxLocals : Nat} {done : Progress}
    (run : a.run entry maxLocals = .ok done) {i : Nat} {s : State}
    (known : stateAt done.states i = some s) : s.Sited P :=
  (Intake.invariant_run inside (closed_siting start held) run).fit i s known

end Analysis

namespace Reframe

variable {h : Hierarchy} {owner : String} {m : Method} {c : Code} {p : Prepared} {done : Progress}

theorem known_siteLabels (n : Nat) (insns : List Insn) (sites : Std.TreeMap Nat Label) :
    Labelling.Keeps (fun _ => True) (siteLabels n insns sites) fun sites' s =>
      ∀ (i : Nat) l, sites'[i]? = some l →
        sites[i]? = some l ∨ i < n + insns.length ∧ s.known[i]? = some l := by
  induction insns generalizing n sites with
  | nil => exact .pure fun s i l found => .inl found
  | cons insn rest ih =>
    have skip := (ih (n + 1) sites).mono (fun sites' s held i l found =>
      (held i l found).imp_right fun known =>
        (⟨by simp only [List.length_cons]; omega, known.2⟩ :
          i < n + (insn :: rest).length ∧ s.known[i]? = some l))
    rw [siteLabels.eq_def]
    dsimp only
    split
    · split
      · refine .bind (Labelling.keeps_labelAt fun _ _ _ => trivial) fun label => ?_
        refine (ih (n + 1) (sites.insert n label)).mono
          fun sites' s held s' grown here i l found => ?_
        rcases held i l found with added | known
        · rw [Std.TreeMap.getElem?_insert] at added
          split at added
          · rename_i same
            rw [Std.LawfulEqCmp.compare_eq_iff_eq] at same
            cases added
            subst same
            exact .inr ⟨by simp only [List.length_cons]; omega, grown _ _ here⟩
          · exact .inl added
        · exact .inr ⟨by simp only [List.length_cons]; omega, known.2⟩
      · exact skip
    · exact skip

theorem sites_of_prepare (made : prepare h owner m c = .ok p) {i : Nat} {l : Label}
    (found : p.analysis.sites[i]? = some l) :
    i ≤ c.executed.length ∧ p.labels.known[i]? = some l := by
  obtain ⟨d, _, made⟩ := bind_ok_iff.1 made
  obtain ⟨flow, ofCode, made⟩ := bind_ok_iff.1 made
  obtain ⟨targets, _, made⟩ := bind_ok_iff.1 made
  cases made
  rcases (known_siteLabels 0 flow.insns.toList ∅ _ trivial).2.2 i l found with none | ⟨low, known⟩
  · rw [Std.TreeMap.getElem?_emptyc] at none
    cases none
  · rw [(Flow.ofCode_eq ofCode).1, Nat.zero_add] at low
    exact ⟨Nat.le_of_lt low, known⟩

theorem entry_of_prepare (made : prepare h owner m c = .ok p) {P : Label → Prop} :
    p.entry.Sited P := by
  obtain ⟨d, _, made⟩ := bind_ok_iff.1 made
  obtain ⟨flow, ofCode, made⟩ := bind_ok_iff.1 made
  obtain ⟨targets, _, made⟩ := bind_ok_iff.1 made
  cases made
  have expanded : ∀ (types : List VType) n, (∀ t ∈ types, t.Sited P) →
      ∀ t ∈ expandLocals types n, t.Sited P := by
    intro types n each t mem
    rcases List.mem_append.1 mem with mem | mem
    · obtain ⟨u, old, mem⟩ := List.mem_flatMap.1 mem
      split at mem
      · rcases List.mem_cons.1 mem with rfl | mem
        · exact each t old
        · rw [List.mem_singleton.1 mem]
          nofun
      · rw [List.mem_singleton.1 mem]
        exact each u old
    · rw [List.eq_of_mem_replicate mem]
      nofun
  refine ⟨expanded _ _ fun t mem => ?_, by nofun⟩
  have params : ∀ t ∈ d.params.map VType.ofFieldType, t.Sited P := by
    intro t mem
    obtain ⟨u, _, rfl⟩ := List.mem_map.1 mem
    exact VType.sited_ofFieldType u
  unfold entryLocals at mem
  dsimp only at mem
  split at mem
  · exact params t mem
  · split at mem
    all_goals
      rcases List.mem_cons.1 mem with rfl | mem
      · nofun
      · exact params t mem

theorem sited_framedStates (made : prepare h owner m c = .ok p)
    (settled : p.settle = .ok done) {x : Nat × State} (mem : x ∈ framedStates p done) :
    x.2.Sited fun l => ∃ i ≤ c.executed.length, p.labels.known[i]? = some l := by
  have states : ∀ i s, stateAt done.states i = some s →
      s.Sited fun l => ∃ i ≤ c.executed.length, p.labels.known[i]? = some l := fun i s known =>
    Analysis.sited_run (inside_of_prepare made) (entry_of_prepare made)
      (fun i l found => ⟨i, sites_of_prepare made found⟩) settled known
  rcases framedStates_cases mem with known | ⟨_, dead⟩
  · exact states x.1 x.2 known
  · rw [dead]
    refine ⟨by nofun, fun t mem => ?_⟩
    rw [List.mem_singleton.1 mem]
    exact VType.sited_object _

theorem mem_dropSecondSlots {types : List VType} {t : VType} (mem : t ∈ dropSecondSlots types) :
    t ∈ types := by
  fun_induction dropSecondSlots types with
  | case1 => exact mem
  | case2 => exact mem
  | case3 u v rest wide ih =>
    rcases List.mem_cons.1 mem with rfl | mem
    · exact List.mem_cons_self ..
    · exact List.mem_cons_of_mem _ (List.mem_cons_of_mem _ (ih mem))
  | case4 u v rest narrow ih =>
    rcases List.mem_cons.1 mem with rfl | mem
    · exact List.mem_cons_self ..
    · exact List.mem_cons_of_mem _ (ih mem)

theorem mem_compressLocals {types : List VType} {t : VType} (mem : t ∈ compressLocals types) :
    t ∈ types := by
  unfold compressLocals dropTops at mem
  have mem := (List.dropWhile_sublist _).subset (List.mem_reverse.1 mem)
  exact mem_dropSecondSlots (List.mem_reverse.1 mem)

theorem uninitSites_toFrame {P : Label → Prop} {s : State} (sited : s.Sited P) {l : Label}
    (mem : l ∈ ClassFile.uninitSites s.toFrame) : P l := by
  obtain ⟨t, mem, site⟩ := List.mem_filterMap.1 mem
  have held : t.Sited P := by
    rcases List.mem_append.1 mem with mem | mem
    · exact sited.locals t (mem_compressLocals mem)
    · exact sited.stack t (List.mem_reverse.1 mem)
  cases t with
  | uninit site' =>
    cases site
    exact held _ rfl
  | _ => cases site

end Reframe

end ClassWeave
