import Mathlib.Data.List.Perm.Subperm
import ClassWeave.Proofs.Hierarchy

/-!
# The nearest supertype

The search climbs the superclass chain of the one class up to the first class that the other one is
assignable to. That one stands above both, and every other candidate of the chain comes behind it.
Where the links form layers, with classes and interfaces apart, both searches meet in one class.
-/

set_option autoImplicit false

namespace ClassWeave

namespace Hierarchy

/-- `b` is the superclass of `a`. A class without a header extends the class of all objects. -/
def Extends (h : Hierarchy) (a b : String) : Prop := h.superclassOf a = some b

/-- The superclass chain from `a`, with `a` itself, comes to `b`. -/
def Chain (h : Hierarchy) : String → String → Prop := Relation.ReflTransGen h.Extends

/-- How a climb ends that looks for a class to assign `b` to. Nothing here bounds its length. -/
inductive Climb (h : Hierarchy) (b : String) : List String → Option String → String → Prop where
  | ended (seen : List String) : Climb h b seen none objectClass
  | circled {seen : List String} {c : String} (known : c ∈ seen) :
    Climb h b seen (some c) objectClass
  | met {seen : List String} {c : String} (fresh : c ∉ seen)
    (fits : h.isAssignable c b = true) : Climb h b seen (some c) c
  | climbed {seen : List String} {c r : String} (fresh : c ∉ seen)
    (refused : h.isAssignable c b = false)
    (rest : Climb h b (c :: seen) (h.superclassOf c) r) : Climb h b seen (some c) r

def Listed (h : Hierarchy) (name : String) : Prop :=
  ∃ a header, h.header? a = some header ∧ name ∈ header.interfaces

/-- The links run upwards, and those to classes and those to interfaces do not mix. -/
structure Layered (h : Hierarchy) (IsInterface : String → Prop) : Prop where
  acyclic : ∀ a, ¬ Relation.TransGen h.Link a a
  top : ∀ b, ¬ h.Link objectClass b
  interfaces : ∀ name header upper, IsInterface name → h.header? name = some header →
    header.superName = some upper → upper = objectClass
  apart : ∀ name header upper, h.header? name = some header → header.superName = some upper →
    ¬ h.Listed upper

variable {h : Hierarchy} {a b c d r s : String} {seen : List String} {start : Option String}

theorem extends_of_known {header : Header} (known : h.header? a = some header) :
    h.Extends a b ↔ header.superName = some b := by
  rw [Extends, superclassOf, known]

theorem extends_of_unknown (unknown : h.header? a = none) (up : h.Extends a b) :
    b = objectClass := by
  rw [Extends, superclassOf, unknown] at up
  dsimp only at up
  split at up
  · cases up
  · exact (Option.some.inj up).symm

theorem link_of_superName {header : Header} (known : h.header? a = some header)
    (up : header.superName = some b) : h.Link a b :=
  ⟨header, known, List.mem_append_left _ (Option.mem_toList.2 up)⟩

/-! The climb ends -/

theorem length_le_entries (nodup : seen.Nodup)
    (known : ∀ c ∈ seen, ∃ header, h.header? c = some header) :
    seen.length ≤ h.entries.length := by
  have named : seen ⊆ h.entries.map Prod.fst := by
    intro c mem
    obtain ⟨header, found⟩ := known c mem
    exact List.mem_map.2 ⟨_, mem_entries found, rfl⟩
  have fewer := (List.subperm_of_subset nodup named).length_le
  rwa [List.length_map] at fewer

theorem isAssignable_object (hb : IsClass b) : h.isAssignable objectClass b = true :=
  (isAssignable_iff isClass_object hb).2 (.inl rfl)

theorem climb_above_unknown {fuel : Nat} (hb : IsClass b) (unknown : h.header? c = none) :
    Climb h b seen (h.superclassOf c)
      (h.firstCommon b (fuel + 1) seen (h.superclassOf c)) := by
  rcases up : h.superclassOf c with _ | s
  · exact .ended seen
  · obtain rfl : s = objectClass := extends_of_unknown unknown up
    rw [firstCommon]
    split
    · rename_i known
      exact .circled (List.contains_iff_mem.1 known)
    · rename_i fresh
      rw [if_pos (isAssignable_object hb)]
      exact .met (fun mem => fresh (List.contains_iff_mem.2 mem)) (isAssignable_object hb)

theorem climb_firstCommon {fuel : Nat} (hb : IsClass b) (nodup : seen.Nodup)
    (known : ∀ c ∈ seen, ∃ header, h.header? c = some header)
    (enough : h.entries.length + 2 ≤ fuel + seen.length) :
    Climb h b seen start (h.firstCommon b fuel seen start) := by
  have fewer := length_le_entries nodup known
  induction fuel generalizing seen start with
  | zero => omega
  | succ fuel ih =>
    cases start with
    | none => exact .ended seen
    | some c =>
      rw [firstCommon]
      by_cases circled : seen.contains c = true
      · rw [if_pos circled]
        exact .circled (List.contains_iff_mem.1 circled)
      rw [if_neg circled]
      have fresh : c ∉ seen := fun mem => circled (List.contains_iff_mem.2 mem)
      by_cases fits : h.isAssignable c b = true
      · rw [if_pos fits]
        exact .met fresh fits
      rw [if_neg fits]
      refine .climbed fresh (Bool.eq_false_iff.2 fits) ?_
      rcases found : h.header? c with _ | header
      · obtain ⟨fuel, rfl⟩ : ∃ n, fuel = n + 1 := ⟨fuel - 1, by omega⟩
        exact climb_above_unknown hb found
      · have nodup' : (c :: seen).Nodup := List.nodup_cons.2 ⟨fresh, nodup⟩
        have known' : ∀ x ∈ c :: seen, ∃ header, h.header? x = some header :=
          List.forall_mem_cons.2 ⟨⟨header, found⟩, known⟩
        apply ih nodup' known'
        · rw [List.length_cons]
          omega
        · exact length_le_entries nodup' known'

theorem climb_superclassOf (hb : IsClass b) (a : String) :
    Climb h b [] (h.superclassOf a)
      (h.firstCommon b (h.classes.size + h.library.size + 3) [] (h.superclassOf a)) := by
  apply climb_firstCommon hb List.nodup_nil (List.forall_mem_nil _)
  rw [entries, List.length_append, Std.TreeMap.length_toList, Std.TreeMap.length_toList]
  omega

/-! What a climb passes -/

theorem mem_of_chain (closed : ∀ x ∈ seen, ∀ y, h.Extends x y → y ∈ seen) (mem : s ∈ seen)
    (above : h.Chain s c) : c ∈ seen := by
  induction above with
  | refl => exact mem
  | tail _ up ih => exact closed _ ih _ up

/-- What `b` is assignable to on the chain comes behind the result. The induction keeps that what
was seen was refused, and that the chain leads from there to what was seen or is looked at next. -/
theorem Climb.least (climb : Climb h b seen start r)
    (refused : ∀ x ∈ seen, h.isAssignable x b = false)
    (closed : ∀ x ∈ seen, ∀ y, h.Extends x y → y ∈ seen ∨ start = some y)
    (first : start = some s) (above : h.Chain s c) (fits : h.isAssignable c b = true) :
    h.Chain r c := by
  induction climb generalizing s with
  | ended seen => cases first
  | @circled seen x known =>
    obtain rfl := Option.some.inj first
    have inside : c ∈ seen := by
      refine mem_of_chain (fun z mem y up => ?_) known above
      rcases closed z mem y up with known' | same
      · exact known'
      · exact Option.some.inj same ▸ known
    rw [refused c inside] at fits
    cases fits
  | met fresh fits' =>
    obtain rfl := Option.some.inj first
    exact above
  | @climbed seen x r fresh refused' rest ih =>
    obtain rfl := Option.some.inj first
    rcases Relation.ReflTransGen.cases_head above with rfl | ⟨y, up, above⟩
    · rw [refused'] at fits
      cases fits
    · refine ih (List.forall_mem_cons.2 ⟨refused', refused⟩) ?_ up above
      intro z mem w up'
      rcases List.mem_cons.1 mem with rfl | mem
      · exact .inr up'
      · rcases closed z mem w up' with known | same
        · exact .inl (List.mem_cons_of_mem _ known)
        · exact .inl (Option.some.inj same ▸ List.mem_cons_self)

theorem Climb.onChain (climb : Climb h b seen start r) :
    r = objectClass ∨ ∃ s, start = some s ∧ h.Chain s r := by
  induction climb with
  | ended seen => exact .inl rfl
  | circled known => exact .inl rfl
  | @met seen c fresh fits => exact .inr ⟨c, rfl, .refl⟩
  | @climbed seen c r fresh refused rest ih =>
    rcases ih with object | ⟨s, up, above⟩
    · exact .inl object
    · exact .inr ⟨c, rfl, .head up above⟩

theorem reach_of_chain (above : h.Chain a b) : h.Reach a b ∨
    h.Chain objectClass b ∧ ∃ u, h.Chain a u ∧ h.header? u = none := by
  induction above with
  | refl => exact .inl .refl
  | @tail b c chain up ih =>
    rcases ih with reach | ⟨beyond, gap⟩
    · rcases found : h.header? b with _ | header
      · obtain rfl := extends_of_unknown found up
        exact .inr ⟨.refl, b, chain, found⟩
      · have superName := (extends_of_known found).1 up
        exact .inl (reach.tail (link_of_superName found superName))
    · exact .inr ⟨beyond.tail up, gap⟩

/-- A class is assignable to what its chain comes to, unless that stands above the class of all
objects and the chain has got there without the header of a class. -/
theorem isAssignable_of_chain (ha : IsClass a) (hb : IsClass b) (above : h.Chain a b) :
    h.isAssignable b a = true ∨
      h.superclassOf objectClass ≠ none ∧ ∃ u, h.Chain a u ∧ h.header? u = none := by
  rw [isAssignable_iff hb ha]
  rcases reach_of_chain above with reach | ⟨beyond, gap⟩
  · exact .inl (.inr reach)
  · rcases Relation.ReflTransGen.cases_head beyond with object | ⟨c, up, _⟩
    · exact .inl (.inl object.symm)
    · refine .inr ⟨fun none => ?_, gap⟩
      rw [Extends, none] at up
      cases up

/-! Both searches -/

/-- Neither class can stand for the other, and no interface is in the way. -/
structure Apart (h : Hierarchy) (a b : String) : Prop where
  left : h.isAssignable a b = false
  right : h.isAssignable b a = false
  leftClass : h.isInterface a = false
  rightClass : h.isInterface b = false

theorem Apart.symm (apart : h.Apart a b) : h.Apart b a :=
  ⟨apart.right, apart.left, apart.rightClass, apart.leftClass⟩

theorem Apart.climb (apart : h.Apart a b) (hb : IsClass b) :
    Climb h b [] (h.superclassOf a) (h.nearestSupertype a b) := by
  have searched : h.nearestSupertype a b =
      h.firstCommon b (h.classes.size + h.library.size + 3) [] (h.superclassOf a) := by
    simp [nearestSupertype, apart.left, apart.right, apart.leftClass, apart.rightClass]
  rw [searched]
  exact climb_superclassOf hb a

theorem Apart.least (apart : h.Apart a b) (hb : IsClass b) (above : h.Chain a c)
    (fits : h.isAssignable c b = true) : h.Chain (h.nearestSupertype a b) c := by
  rcases Relation.ReflTransGen.cases_head above with rfl | ⟨s, up, above⟩
  · rw [apart.left] at fits
    cases fits
  · exact (apart.climb hb).least (fun _ mem => nomatch mem) (fun _ mem => nomatch mem) up above fits

/-- What a common supertype of two classes is asked for. -/
structure IsNearest (h : Hierarchy) (a b r : String) : Prop where
  left : h.isAssignable r a = true
  right : h.isAssignable r b = true
  ends : h.Apart a b → Climb h b [] (h.superclassOf a) r
  candidate : h.Apart a b → r = objectClass ∨ h.Chain a r
  /-- Candidates on the chain of `a` come behind the result. They are above it, unless the chain
  passes a class without a header and goes on above the class of all objects. -/
  least : h.Apart a b → ∀ c, h.Chain a c → h.isAssignable c b = true → h.Chain r c ∧
    (h.isAssignable c r = true ∨
      h.superclassOf objectClass ≠ none ∧ ∃ u, h.Chain r u ∧ h.header? u = none)

theorem isNearest_nearestSupertype (ha : IsClass a) (hb : IsClass b) :
    h.IsNearest a b (h.nearestSupertype a b) := by
  obtain ⟨class', left, right⟩ := above_nearestSupertype (h := h) ha hb
  refine ⟨(isAssignable_iff class' ha).2 left, (isAssignable_iff class' hb).2 right,
    fun apart => apart.climb hb, fun apart => ?_, fun apart c above fits => ?_⟩
  · exact (apart.climb hb).onChain.imp_right fun ⟨_, up, above⟩ => .head up above
  · have chain := apart.least hb above fits
    exact ⟨chain, isAssignable_of_chain class' (isClass_of_isAssignable hb fits) chain⟩

namespace Layered

variable {IsInterface : String → Prop}

theorem antisymm (layered : h.Layered IsInterface) (up : h.Reach a b) (down : h.Reach b a) :
    a = b := by
  rcases Relation.reflTransGen_iff_eq_or_transGen.1 up with same | up
  · exact same.symm
  · exact absurd (up.trans_left down) (layered.acyclic a)

theorem superclassOf_object (layered : h.Layered IsInterface) :
    ¬ h.Extends objectClass b := by
  intro up
  rcases found : h.header? objectClass with _ | header
  · rw [Extends, superclassOf, found] at up
    cases up
  · exact layered.top b (link_of_superName found ((extends_of_known found).1 up))

theorem eq_of_chain_object (layered : h.Layered IsInterface) (above : h.Chain objectClass b) :
    b = objectClass := by
  rcases Relation.ReflTransGen.cases_head above with same | ⟨c, up, _⟩
  · exact same.symm
  · exact absurd up layered.superclassOf_object

theorem reach_of_chain (layered : h.Layered IsInterface) (above : h.Chain a b)
    (proper : b ≠ objectClass) : h.Reach a b := by
  rcases Hierarchy.reach_of_chain above with reach | ⟨beyond, _⟩
  · exact reach
  · exact absurd (layered.eq_of_chain_object beyond) proper

theorem chain_of_reach (layered : h.Layered h.Listed) (reach : h.Reach a b)
    (proper : b ≠ objectClass) (unlisted : ¬ h.Listed b) : h.Chain a b := by
  induction reach with
  | refl => exact .refl
  | @tail c b _ link ih =>
    obtain ⟨header, found, mem⟩ := link
    have up : header.superName = some b := by
      rcases List.mem_append.1 mem with up | listed
      · exact Option.mem_toList.1 up
      · exact absurd ⟨c, header, found, listed⟩ unlisted
    have classBelow : ¬ h.Listed c :=
      fun listed => proper (layered.interfaces c header b listed found up)
    have properBelow : c ≠ objectClass := by
      rintro rfl
      exact layered.top b (link_of_superName found up)
    exact (ih properBelow classBelow).tail ((extends_of_known found).2 up)

theorem not_listed (layered : h.Layered IsInterface) (up : h.Extends a b)
    (proper : b ≠ objectClass) : ¬ h.Listed b := by
  rcases found : h.header? a with _ | header
  · exact absurd (extends_of_unknown found up) proper
  · exact layered.apart a header b found ((extends_of_known found).1 up)

theorem chain_nearestSupertype (layered : h.Layered h.Listed) (ha : IsClass a) (hb : IsClass b)
    (apart : h.Apart a b) (proper : h.nearestSupertype a b ≠ objectClass) :
    h.Chain (h.nearestSupertype b a) (h.nearestSupertype a b) := by
  have nearest := isNearest_nearestSupertype (h := h) ha hb
  have unlisted : ¬ h.Listed (h.nearestSupertype a b) := by
    rcases (apart.climb hb).onChain with object | ⟨s, up, above⟩
    · exact absurd object proper
    · rcases Relation.ReflTransGen.cases_tail above with same | ⟨c, _, last⟩
      · exact layered.not_listed (a := a) (same ▸ up) proper
      · exact layered.not_listed last proper
  have class' := (above_nearestSupertype (h := h) ha hb).1
  have reach := ((isAssignable_iff class' hb).1 nearest.right).resolve_left proper
  exact apart.symm.least ha (layered.chain_of_reach reach proper unlisted) nearest.left

theorem comm_of_apart (layered : h.Layered h.Listed) (ha : IsClass a) (hb : IsClass b)
    (apart : h.Apart a b) : h.nearestSupertype a b = h.nearestSupertype b a := by
  have forth := layered.chain_nearestSupertype ha hb apart
  have back := layered.chain_nearestSupertype hb ha apart.symm
  by_cases proper : h.nearestSupertype a b = objectClass
  · by_cases proper' : h.nearestSupertype b a = objectClass
    · rw [proper, proper']
    · have chain := back proper'
      rw [proper] at chain
      exact absurd (layered.eq_of_chain_object chain) proper'
  · have chain := forth proper
    have proper' : h.nearestSupertype b a ≠ objectClass := by
      intro object
      rw [object] at chain
      exact proper (layered.eq_of_chain_object chain)
    exact layered.antisymm (layered.reach_of_chain (back proper') proper')
      (layered.reach_of_chain chain proper)

theorem eq_of_assignable (layered : h.Layered IsInterface) (ha : IsClass a) (hb : IsClass b)
    (up : h.isAssignable b a = true) (down : h.isAssignable a b = true) : a = b := by
  have onlyObject : ∀ c, h.Reach objectClass c → c = objectClass := by
    intro c reach
    rcases Relation.ReflTransGen.cases_head reach with same | ⟨d, link, _⟩
    · exact same.symm
    · exact absurd link (layered.top d)
  rcases (isAssignable_iff hb ha).1 up with rfl | up
  · rcases (isAssignable_iff ha hb).1 down with same | down
    · exact same
    · exact onlyObject a down
  · rcases (isAssignable_iff ha hb).1 down with rfl | down
    · exact (onlyObject b up).symm
    · exact layered.antisymm up down

theorem comm_of_assignable (layered : h.Layered IsInterface) (ha : IsClass a) (hb : IsClass b)
    (fits : h.isAssignable a b = true) : h.nearestSupertype a b = h.nearestSupertype b a := by
  rw [nearestSupertype, if_pos fits, nearestSupertype]
  split
  · rename_i back
    exact layered.eq_of_assignable ha hb back fits
  · rfl

theorem nearestSupertype_comm (layered : h.Layered h.Listed) (ha : IsClass a) (hb : IsClass b) :
    h.nearestSupertype a b = h.nearestSupertype b a := by
  by_cases left : h.isAssignable a b = true
  · exact layered.comm_of_assignable ha hb left
  by_cases right : h.isAssignable b a = true
  · exact (layered.comm_of_assignable hb ha right).symm
  rw [Bool.not_eq_true] at left right
  by_cases interface : (h.isInterface a || h.isInterface b) = true
  · have other : (h.isInterface b || h.isInterface a) = true := by rwa [Bool.or_comm]
    simp [nearestSupertype, left, right, interface, other]
  · rw [Bool.not_eq_true, Bool.or_eq_false_iff] at interface
    exact layered.comm_of_apart ha hb ⟨left, right, interface.1, interface.2⟩

theorem of_entries (rank : String → Nat)
    (upwards : ∀ e ∈ h.entries, ∀ upper ∈ supertypes e.2, rank upper < rank e.1)
    (top : ∀ e ∈ h.entries, e.1 = objectClass → supertypes e.2 = [])
    (interfaces : ∀ e ∈ h.entries, IsInterface e.1 → ∀ upper ∈ e.2.superName, upper = objectClass)
    (apart : ∀ e ∈ h.entries, ∀ upper ∈ e.2.superName, ∀ e' ∈ h.entries,
      upper ∉ e'.2.interfaces) : h.Layered IsInterface where
  acyclic := by
    have lower : ∀ a b, Relation.TransGen h.Link a b → rank b < rank a := by
      intro a b path
      induction path with
      | single link =>
        obtain ⟨header, found, mem⟩ := link
        exact upwards _ (mem_entries found) _ mem
      | tail _ link ih =>
        obtain ⟨header, found, mem⟩ := link
        exact Nat.lt_trans (upwards _ (mem_entries found) _ mem) ih
    exact fun a path => Nat.lt_irrefl _ (lower a a path)
  top := by
    rintro b ⟨header, found, mem⟩
    rw [top _ (mem_entries found) rfl] at mem
    cases mem
  interfaces name header upper is found up := interfaces _ (mem_entries found) is _ up
  apart := by
    rintro name header upper found up ⟨a, header', found', mem⟩
    exact apart _ (mem_entries found) _ up _ (mem_entries found') mem

end Layered

/-- The search for the nearest supertype ends with a class that both are assignable to. The
candidates on the chain of the first class come behind it, and the order of the two classes does
not matter where the links form layers. -/
theorem nearestSupertype_least (h : Hierarchy) :
    (∀ a b, IsClass a → IsClass b → h.IsNearest a b (h.nearestSupertype a b)) ∧
    (h.Layered h.Listed → ∀ a b, IsClass a → IsClass b →
      h.nearestSupertype a b = h.nearestSupertype b a) :=
  ⟨fun _ _ ha hb => isNearest_nearestSupertype ha hb,
    fun layered _ _ ha hb => layered.nearestSupertype_comm ha hb⟩

/-- Two classes below one that implements an interface. -/
def scene : Hierarchy :=
  [⟨"node", some objectClass, [], false⟩, ⟨"entity", some "node", ["Renderable"], false⟩,
    ⟨"npc", some "entity", [], false⟩, ⟨"player", some "entity", ["Renderable"], false⟩,
    ⟨"Renderable", some objectClass, [], true⟩].foldl Hierarchy.insert empty

theorem layered_scene : scene.Layered scene.Listed := by
  refine .of_entries
    (fun name => [objectClass, "Renderable", "node", "entity", "npc", "player"].idxOf name)
    (by decide +kernel) (by decide +kernel) ?_ (by decide +kernel)
  rintro e mem ⟨a, header, found, listed⟩
  have single : ∀ e ∈ scene.entries, ∀ e' ∈ scene.entries, e.1 ∈ e'.2.interfaces →
      ∀ upper ∈ e.2.superName, upper = objectClass := by
    decide +kernel
  exact single e mem _ (mem_entries found) listed

theorem apart_scene : scene.Apart "npc" "player" :=
  ⟨by decide +kernel, by decide +kernel, by decide +kernel, by decide +kernel⟩

theorem nearestSupertype_scene :
    scene.nearestSupertype "npc" "player" = "entity" ∧
    scene.nearestSupertype "player" "npc" = "entity" ∧
    Climb scene "player" [] (some "entity") "entity" ∧ scene.Chain "entity" "node" := by
  obtain ⟨nearest, comm⟩ := nearestSupertype_least scene
  have npc : IsClass "npc" := by unfold IsClass; decide
  have player : IsClass "player" := by unfold IsClass; decide
  have found : scene.nearestSupertype "npc" "player" = "entity" := by decide +kernel
  have least := nearest "npc" "player" npc player
  have up : scene.Chain "npc" "node" := by
    refine .head (b := "entity") ?_ (.single ?_) <;> unfold Extends <;> decide +kernel
  rw [found] at least
  refine ⟨found, (comm layered_scene _ _ npc player).symm.trans found, ?_, ?_⟩
  · have superclass : scene.superclassOf "npc" = some "entity" := by decide +kernel
    exact superclass ▸ least.ends apart_scene
  · exact (least.least apart_scene "node" up (by decide +kernel)).1

def gappedHierarchy : Hierarchy :=
  [⟨objectClass, some "root", [], false⟩, ⟨"a", some "unknown", [], false⟩,
    ⟨"b", some "unknown", ["root"], false⟩].foldl Hierarchy.insert empty

def mixedHierarchy : Hierarchy :=
  [⟨"a", some "base", [], false⟩, ⟨"b", some objectClass, ["middle"], false⟩,
    ⟨"middle", some "base", [], false⟩].foldl Hierarchy.insert empty

theorem layered_mixedHierarchy :
    mixedHierarchy.Layered fun name => mixedHierarchy.isInterface name = true :=
  .of_entries (fun name => [objectClass, "base", "middle", "a", "b"].idxOf name)
    (by decide +kernel) (by decide +kernel) (by decide +kernel) (by decide +kernel)

/-- A candidate on the chain need not be above the result, and searches can differ if only what is
marked as an interface counts as one. -/
theorem nearestSupertype_not_least :
    (¬ ∀ (h : Hierarchy) (a b c : String), IsClass a → IsClass b → h.Apart a b → h.Chain a c →
      h.isAssignable c b = true →
      c = h.nearestSupertype a b ∨ h.isAssignable c (h.nearestSupertype a b) = true) ∧
    ¬ ∀ (h : Hierarchy) (a b : String), (h.Layered fun name => h.isInterface name = true) →
      IsClass a → IsClass b → h.nearestSupertype a b = h.nearestSupertype b a := by
  have plain : IsClass "a" ∧ IsClass "b" := by unfold IsClass; decide
  constructor
  · intro always
    have apart : gappedHierarchy.Apart "a" "b" :=
      ⟨by decide +kernel, by decide +kernel, by decide +kernel, by decide +kernel⟩
    have up : gappedHierarchy.Chain "a" "root" := by
      refine .head (b := "unknown") ?_ (.head (b := objectClass) ?_ (.single ?_)) <;>
        unfold Extends <;> decide +kernel
    have above := always gappedHierarchy "a" "b" "root" plain.1 plain.2 apart up (by decide +kernel)
    revert above
    decide +kernel
  · intro always
    have same := always mixedHierarchy "a" "b" layered_mixedHierarchy plain.1 plain.2
    revert same
    decide +kernel

end Hierarchy

end ClassWeave
