import Mathlib.Data.List.Forall2
import Mathlib.Tactic.Common
import ClassWeave.Proofs.Attributes
import ClassWeave.Proofs.Emission
import ClassWeave.Proofs.SortOn
import ClassWeave.Proofs.StackMap

/-!
# A stored body read back

The parts of a body are written against the layout of its code array: exception table, frames,
lines and local variables. Each part reads back with every label at its offset, and a label is
bound exactly where something names it.
-/

set_option autoImplicit false

namespace ClassWeave

def Positions.offset (positions : Positions) (l : Label) : Nat := (positions.find? l).getD 0

theorem Positions.offset_of_place {positions : Positions} {l : Label} {n : Nat}
    (h : positions.place l = .ok n) : positions.offset l = n := by
  rw [offset, Positions.place_eq_ok.1 h]
  rfl

def Positions.Within (positions : Positions) (length : Nat) : Prop :=
  ∀ l n, positions.find? l = some n → n ≤ length

theorem Positions.Within.offset_le {positions : Positions} {length : Nat}
    (h : positions.Within length) (l : Label) : positions.offset l ≤ length := by
  rw [offset]
  rcases hl : positions.find? l with _ | n
  · exact Nat.zero_le _
  · exact h l n hl

def Handler.isLive (positions : Positions) (h : Handler) : Bool :=
  positions.offset h.start < positions.offset h.finish

def LocalVariable.placed (positions : Positions) (v : LocalVariable) : LocalVariable :=
  let start := positions.offset v.start
  { v with
    start := Label.ofNat start
    finish := Label.ofNat (start + (positions.offset v.finish - start)) }

namespace ClassFile

variable {limits : Limits} {positions : Positions} {length : Nat}

theorem grows_place {x : Label} :
    Grows (σ := Tables) limits (positions.place x : Tables.Growth Nat) fun _ n =>
      positions.find? x = some n :=
  .lift fun _ _ h => Positions.place_eq_ok.1 h

theorem readsAt_readHandler {p : Pool} {o start finish target : Nat} {catchIndex : UInt16}
    {catchType : Option String} (live : start < finish) (hfinish : finish ≤ length)
    (htarget : target < length) (short : length < 65536)
    (hcatch : catchIndex = 0 ∧ catchType = none ∨
      ∃ name, catchIndex ≠ 0 ∧ p.className catchIndex = .ok name ∧ catchType = some name) :
    ReadsAt o (readHandler p length)
      (Bytes.be 2 start ++ Bytes.be 2 finish ++ Bytes.be 2 target ++ Bytes.be 2 catchIndex.toNat)
      ⟨Label.ofNat start, Label.ofNat finish, Label.ofNat target, catchType⟩ := by
  have hs : start < 65536 := by omega
  have hf : finish < 65536 := by omega
  have ht : target < 65536 := by omega
  simp only [List.append_assoc]
  refine .bind (.u16 _ hs) (.bind (.u16 _ hf) (.bind (.u16 _ ht) (.bind_last (.u16_toNat _) ?_)))
  rw [UInt16.toNat_ofNat_of_lt' hs, UInt16.toNat_ofNat_of_lt' hf, UInt16.toNat_ofNat_of_lt' ht,
    if_neg (by omega)]
  rcases hcatch with ⟨rfl, rfl⟩ | ⟨name, ne, found, rfl⟩
  · exact .pure _
  · dsimp only
    rw [if_neg ne]
    exact .bind_nil (.map some (.lift found)) (.pure _)

def HandlerRead (positions : Positions) (length : Nat) (p : Pool) (h : Handler)
    (stored : Option Bytes) : Prop :=
  match stored with
  | none => h.isLive positions = false
  | some bytes => h.isLive positions = true ∧ (positions.offset h.target < length →
      ∀ o, ReadsAt o (readHandler p length) bytes (h.relabel positions.moved))

theorem grows_encodeHandler (hp : positions.Within length) (short : length < 65536) {h : Handler}
    (within : ∀ name, h.catchType = some name → limits.text name) :
    Grows limits (encodeHandler positions h) fun f stored =>
      HandlerRead positions length f.pool h stored := by
  refine .bind grows_place fun start hstart => ?_
  refine .bind grows_place fun finish hfinish => ?_
  obtain ⟨_, hstart⟩ := hstart
  obtain ⟨_, hfinish⟩ := hfinish
  have live : h.isLive positions = decide (start < finish) := by
    rw [Handler.isLive, Positions.offset, Positions.offset, hstart, hfinish]
    rfl
  split
  · rename_i empty
    refine .pure fun f _ _ => ?_
    rw [HandlerRead, live]
    simp
    omega
  · rename_i some_range
    have finish_le := hp _ _ hfinish
    refine .bind grows_place fun target htarget => ?_
    obtain ⟨_, htarget⟩ := htarget
    have moved : h.relabel positions.moved = ⟨Label.ofNat start, Label.ofNat finish,
        Label.ofNat target, h.catchType⟩ := by
      rw [Handler.relabel, Positions.moved_of_find? hstart, Positions.moved_of_find? hfinish,
        Positions.moved_of_find? htarget]
    have stored : ∀ (f : Tables) (i : UInt16),
        (i = 0 ∧ h.catchType = none ∨
          ∃ name, i ≠ 0 ∧ f.pool.className i = .ok name ∧ h.catchType = some name) →
        HandlerRead positions length f.pool h (some (Bytes.be 2 start ++ Bytes.be 2 finish ++
          Bytes.be 2 target ++ Bytes.be 2 i.toNat)) := by
      intro f i hi
      refine ⟨by rw [live]; simpa using some_range, fun inside o => ?_⟩
      rw [Positions.offset, htarget] at inside
      rw [moved]
      exact readsAt_readHandler (by omega) finish_le inside short hi
    rcases hc : h.catchType with _ | name
    · refine .pure fun f _ _ _ => stored f 0 (.inl ⟨rfl, hc⟩)
    · refine .bind (Tables.grows_className (within name hc)) fun i _ => ?_
      exact .pure fun f hi _ _ _ => stored f i (.inr ⟨name, hi.1, hi.2, hc⟩)

theorem readsAt_handlers {p : Pool} {handlers : List Handler} {stored : List (Option Bytes)}
    (h : List.Forall₂ (HandlerRead positions length p) handlers stored)
    (inside : ∀ h ∈ handlers, h.isLive positions = true → positions.offset h.target < length) :
    List.Forall₂ (fun bs h => ∀ o, ReadsAt o (readHandler p length) bs h) (stored.filterMap id)
      ((handlers.filter (Handler.isLive positions)).map (Handler.relabel positions.moved)) := by
  induction h with
  | nil => exact .nil
  | @cons handler bytes handlers stored first _ ih =>
    have rest := ih fun h hh => inside h (List.mem_cons_of_mem _ hh)
    cases bytes with
    | none =>
      rw [List.filter_cons_of_neg (by rw [first]; decide)]
      exact rest
    | some bytes =>
      obtain ⟨live, read⟩ := first
      rw [List.filter_cons_of_pos live]
      exact .cons (read (inside handler (List.mem_cons_self ..) live)) rest

namespace BodyTarget

def context (t : BodyTarget) (f : Tables) : BodyContext :=
  ⟨f.pool, f.bootstraps, t.owner, t.method.access, t.method.name, t.method.desc⟩

def initialLocals (t : BodyTarget) (d : MethodDescriptor) : List VType :=
  entryLocals t.owner t.method.access t.method.name d

def storedFrames (t : BodyTarget) (positions : Positions) (c : Code) : List (Nat × Frame) :=
  if !t.withFrames || (c.frames.getD []).isEmpty then []
  else dedupOn (fun f => (f.1 : Int)) (sortOn (fun f => (f.1 : Int))
    ((c.frames.getD []).map fun f => (positions.offset f.1, f.2)))

theorem ascending_storedFrames (t : BodyTarget) (positions : Positions) (c : Code) :
    (t.storedFrames positions c).Pairwise (·.1 < ·.1) := by
  unfold storedFrames
  split
  · exact .nil
  · exact (pairwise_dedupOn (pairwise_sortOn _ _)).imp fun h => by omega

theorem mem_storedFrames {t : BodyTarget} {positions : Positions} {c : Code} {g : Nat × Frame}
    (h : g ∈ t.storedFrames positions c) :
    ∃ f ∈ c.frames.getD [], g = (positions.offset f.1, f.2) := by
  unfold storedFrames at h
  split at h
  · cases h
  · have mem := (sortOn_perm _ _).mem_iff.1 (mem_of_mem_dedupOn h)
    obtain ⟨f, hf, same⟩ := List.mem_map.1 mem
    exact ⟨f, hf, same.symm⟩

/-- The stored frames lie inside the code and each is reached from the one before. -/
structure FramesFit (t : BodyTarget) (length : Nat) (frames : List (Nat × Frame)) : Prop where
  inside : ∀ g ∈ frames, g.1 < length
  reachable : ∀ d, t.method.descriptor = .ok d → StackMap.Reachable (t.initialLocals d) frames

end BodyTarget

theorem placedFrames_eq {frames : List LabelledFrame} {placed : List (Nat × Frame)}
    (h : placedFrames positions frames = .ok placed) :
    placed = dedupOn (fun f => (f.1 : Int)) (sortOn (fun f => (f.1 : Int))
      (frames.map fun f => (positions.offset f.1, f.2))) := by
  obtain ⟨found, hfound, h⟩ := bind_ok_iff.1 h
  cases h
  have same : found = frames.map fun f => (positions.offset f.1, f.2) := by
    refine eq_map_of_forall₂ (mapM_ok_iff.1 hfound) fun f g h => ?_
    obtain ⟨n, hn, h⟩ := bind_ok_iff.1 h
    cases h
    rw [Positions.offset_of_place hn]
  rw [same]

theorem entryLocals_fresh (owner : String) (access : Access) (name : String) (d : MethodDescriptor)
    (f : Label → Label) : ∀ t ∈ entryLocals owner access name d, t.relabel f = t := by
  have params : ∀ t ∈ d.params.map VType.ofFieldType, t.relabel f = t := by
    intro t ht
    obtain ⟨p, _, rfl⟩ := List.mem_map.1 ht
    cases p <;> rfl
  intro t ht
  unfold entryLocals at ht
  split at ht
  · exact params t ht
  · split at ht
    all_goals
      rcases List.mem_cons.1 ht with rfl | ht
      · rfl
      · exact params t ht

theorem grows_encodeFrames {t : BodyTarget} {c : Code} (hp : positions.Within length)
    (short : length < 65536) (names : limits.text "StackMapTable")
    (within : ∀ f ∈ c.frames.getD [], f.2.Within limits)
    (fit : t.FramesFit length (t.storedFrames positions c)) :
    Grows limits (encodeFrames t positions c) fun f attributes =>
      (∀ a ∈ attributes, limits.text a.name) ∧
      (attributes = [] ∧ t.storedFrames positions c = [] ∨
        ∃ data, attributes = [⟨"StackMapTable", data⟩] ∧
          decodeFrames (t.context f) length data =
            .ok ((t.storedFrames positions c).map
              fun g => (g.1, g.2.relabel positions.moved))) := by
  unfold encodeFrames
  dsimp only
  split
  · rename_i none
    refine .pure fun f => ⟨(fun a ha => nomatch ha), .inl ⟨rfl, ?_⟩⟩
    rw [BodyTarget.storedFrames, if_pos none]
  · rename_i some_frames
    have bounded : positions.Bounded := fun l n h => by
      have := hp l n h
      omega
    have stored : ∀ placed, placedFrames positions (c.frames.getD []) = .ok placed →
        placed = t.storedFrames positions c := by
      intro placed h
      rw [placedFrames_eq h, BodyTarget.storedFrames, if_neg some_frames]
    refine .bind (P := fun _ placed => placed = t.storedFrames positions c)
      (.lift fun _ placed h => stored placed h) fun placed hplaced => ?_
    obtain ⟨_, rfl⟩ := hplaced
    refine .bind (P := fun _ d => t.method.descriptor = .ok d) (.lift fun _ d h => ?_)
      fun d hd => ?_
    · unfold orMalformed at h
      cases hd : t.method.descriptor with
      | error e =>
        rw [hd] at h
        cases h
      | ok d' =>
        rw [hd] at h
        cases h
        rfl
    · obtain ⟨_, hd⟩ := hd
      have ascending := t.ascending_storedFrames positions c
      have inside := fit.inside
      have count : 0 + (t.storedFrames positions c).length ≤ length :=
        length_le_of_ascending ascending (fun _ _ => Nat.zero_le _) inside (Nat.zero_le _)
      have fresh : ∀ v ∈ t.initialLocals d, v.relabel positions.moved = v :=
        entryLocals_fresh t.owner t.method.access t.method.name d positions.moved
      have written : Grows limits _ _ := StackMap.grows_encode ascending
        (fun g hg => by have := inside g hg; omega) (fun g _ => bounded.near g.2)
        (fun g hg => by
          obtain ⟨f, hf, rfl⟩ := BodyTarget.mem_storedFrames hg
          exact within f hf)
        (fit.reachable d hd) (by omega)
      rw [List.map_congr_left fresh, List.map_id'] at written
      refine .bind (Tables.grows_onPool written) fun data _ => ?_
      refine .pure fun f hdata _ _ => ⟨fun a ha => ?_, .inr ⟨data, rfl, ?_⟩⟩
      · rw [List.mem_singleton.1 ha]
        exact names
      · refine bind_ok_iff.2 ⟨d, hd, bind_ok_iff.2 ⟨_, hdata, ?_⟩⟩
        have none_outside : ((t.storedFrames positions c).map fun g =>
            (g.1, g.2.relabel positions.moved)).find? (fun g => length ≤ g.1) = none := by
          rw [List.find?_eq_none]
          intro g hg
          obtain ⟨g', hg', rfl⟩ := List.mem_map.1 hg
          have := inside g' hg'
          simp
          omega
        rw [none_outside]
        rfl

def storedLines (l : Layout) : List (Nat × UInt16) :=
  l.placed.filterMap fun p =>
    match p.insn with
    | .line number => if p.offset < l.length then some (p.offset, number) else none
    | _ => none

def encodeLine (e : Nat × UInt16) : Bytes := Bytes.be 2 e.1 ++ Bytes.be 2 e.2.toNat

theorem encodeLines_eq (l : Layout) :
    encodeLines l = if (storedLines l).isEmpty then []
      else [⟨"LineNumberTable",
        Bytes.be 2 (storedLines l).length ++ (storedLines l).flatMap encodeLine⟩] := by
  have entries : (l.placed.filterMap fun p =>
      match p.insn with
      | .line number =>
        if p.offset < l.length then some (Bytes.be 2 p.offset ++ Bytes.be 2 number.toNat) else none
      | _ => none) = (storedLines l).map encodeLine := by
    rw [storedLines, List.map_filterMap]
    congr 1
    funext p
    cases p.insn with
    | line number =>
      dsimp only
      split <;> rfl
    | _ => rfl
  refine (congrArg (fun entries : List Bytes => if entries.isEmpty then []
    else [(⟨"LineNumberTable", Bytes.be 2 entries.length ++ entries.flatten⟩ : Attribute)])
    entries).trans ?_
  rw [List.isEmpty_map, List.length_map, List.flatMap_def]

theorem lt_of_mem_storedLines {l : Layout} {e : Nat × UInt16} (h : e ∈ storedLines l) :
    e.1 < l.length := by
  obtain ⟨p, _, hp⟩ := List.mem_filterMap.1 h
  split at hp
  · split at hp
    · cases hp
      assumption
    · cases hp
  · cases hp

theorem readLines_encode {lines : List (Nat × UInt16)} (near : ∀ e ∈ lines, e.1 < 65536)
    (count : lines.length < 65536) :
    (Reader.counted readLine).runOn (Bytes.be 2 lines.length ++ lines.flatMap encodeLine) =
      .ok lines := by
  have each : ∀ e ∈ lines, ∀ o, ReadsAt o readLine (encodeLine e) e := by
    intro e he o
    refine .bind (.u16 _ (near e he)) (.bind_last (.u16_toNat e.2) ?_)
    rw [UInt16.toNat_ofNat_of_lt' (near e he)]
    exact .pure _
  exact ReadsAll.runOn (ReadsAt.countedMap each count).all

theorem readsAt_readLocal {p : Pool} {o start span : Nat} {name desc : String}
    {nameIndex descIndex slot : UInt16} {generic : Bool} (hname : p.utf8 nameIndex = .ok name)
    (hdesc : p.utf8 descIndex = .ok desc) (inside : start + span ≤ length)
    (short : length < 65536) :
    ReadsAt o (readLocal p length generic)
      (Bytes.be 2 start ++ Bytes.be 2 span ++ Bytes.be 2 nameIndex.toNat ++
        Bytes.be 2 descIndex.toNat ++ Bytes.be 2 slot.toNat)
      (some ⟨Label.ofNat start, Label.ofNat (start + span), name, desc, slot, generic⟩) := by
  have hs : start < 65536 := by omega
  have hf : span < 65536 := by omega
  have text : ∀ {o : Nat} {i : UInt16} {text : String}, p.utf8 i = .ok text →
      ReadsAt o (readUtf8 p) (Bytes.be 2 i.toNat) text := fun h =>
    .bind_last (.u16_toNat _) (.lift h)
  simp only [List.append_assoc]
  refine .bind (.u16 _ hs) (.bind (.u16 _ hf) (.bind (text hname) (.bind (text hdesc) ?_)))
  refine .bind_last (.u16_toNat slot) ?_
  rw [UInt16.toNat_ofNat_of_lt' hs, UInt16.toNat_ofNat_of_lt' hf, if_neg (by omega)]
  exact .pure _

theorem grows_encodeLocal (hp : positions.Within length) (short : length < 65536)
    {v : LocalVariable} (hname : limits.text v.name) (hdesc : limits.text v.desc) :
    Grows limits (encodeLocal positions v) fun f bytes => ∀ o,
      ReadsAt o (readLocal f.pool length v.generic) bytes (some (v.placed positions)) := by
  refine .bind grows_place fun start hstart => ?_
  refine .bind grows_place fun finish hfinish => ?_
  obtain ⟨_, hstart⟩ := hstart
  obtain ⟨_, hfinish⟩ := hfinish
  refine .bind (Tables.grows_utf8 hname) fun i _ => ?_
  refine .bind (Tables.grows_utf8 hdesc) fun j _ => ?_
  refine .pure fun f hj hi _ _ o => ?_
  have start_le := hp _ _ hstart
  have finish_le := hp _ _ hfinish
  have inside : start + (finish - start) ≤ length := by omega
  have placed : v.placed positions = ⟨Label.ofNat start, Label.ofNat (start + (finish - start)),
      v.name, v.desc, v.slot, v.generic⟩ := by
    rw [LocalVariable.placed, Positions.offset, Positions.offset, hstart, hfinish]
    rfl
  rw [placed]
  exact readsAt_readLocal hi.2 hj.2 inside short

theorem grows_encodeLocals (hp : positions.Within length) (short : length < 65536)
    {name : String} (hname : limits.text name) {locals : List LocalVariable} {generic : Bool}
    (kind : ∀ v ∈ locals, v.generic = generic)
    (within : ∀ v ∈ locals, limits.text v.name ∧ limits.text v.desc)
    (count : locals.length < 65536) :
    Grows limits (encodeLocals positions name locals) fun f attributes =>
      (∀ a ∈ attributes, limits.text a.name) ∧
      (attributes = [] ∧ locals = [] ∨ ∃ data, attributes = [⟨name, data⟩] ∧
        (Reader.counted (readLocal f.pool length generic)).runOn data =
          .ok (locals.map fun v => some (v.placed positions))) := by
  unfold encodeLocals
  split
  · rename_i none
    refine .pure fun f => ⟨(fun a ha => nomatch ha), .inl ⟨rfl, ?_⟩⟩
    exact List.isEmpty_iff.1 none
  · have steps : Grows limits (locals.mapM (encodeLocal positions)) fun f written =>
        List.Forall₂ (fun v bs => ∀ o, ReadsAt o (readLocal f.pool length generic) bs
          (some (v.placed positions))) locals written := by
      refine .mapM fun v hv => ?_
      have step : Grows limits _ _ :=
        grows_encodeLocal hp short (within v hv).1 (within v hv).2
      rwa [kind v hv] at step
    refine .bind steps fun written _ => .pure fun f hw => ⟨fun a ha => ?_, .inr ⟨_, rfl, ?_⟩⟩
    · rw [List.mem_singleton.1 ha]
      exact hname
    · apply ReadsAll.runOn
      have read : ReadsAt 0 (Reader.counted (readLocal f.pool length generic))
          (Bytes.be 2 (locals.map fun v => some (v.placed positions)).length ++ written.flatten)
          (locals.map fun v => some (v.placed positions)) :=
        .counted (List.forall₂_map_right_iff.2 hw.flip) (by rwa [List.length_map])
      rw [List.length_map] at read
      exact read.all

end ClassFile

end ClassWeave
