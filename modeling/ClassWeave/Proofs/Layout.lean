import Mathlib.Data.List.Forall2
import Mathlib.Tactic.Common
import ClassWeave.Layout
import ClassWeave.Proofs.Bootstraps
import ClassWeave.Proofs.Relabel
import ClassWeave.Proofs.StackMap

/-!
# What a layout fixes

The placed instructions are the given ones, each at the offset where the one before it ends; a
label stands where its last mark was placed, and the index of a loaded constant resolves to it.
-/

set_option autoImplicit false

namespace ClassWeave

namespace Placed

def size (p : Placed) : Nat := p.insn.size p.offset p.index

theorem size_mark {p : Placed} (h : ¬ p.insn.isExecuted = true) : p.size = 0 := by
  unfold size
  cases hi : p.insn <;> simp [hi, Insn.isExecuted, Insn.size] at h ⊢

theorem size_pos {p : Placed} (h : p.insn.isExecuted = true) : 0 < p.size := by
  obtain ⟨pc, insn, index⟩ := p
  unfold size Insn.size
  cases insn with
  | label x => cases h
  | line n => cases h
  | _ =>
    dsimp only
    repeat' split
    all_goals omega

def Sound (f : Tables) (p : Placed) : Prop :=
  ∀ v, p.insn = .ldc v → ∃ i, p.index = some i ∧ Tables.Resolves v f i

def mark (positions : Positions) (p : Placed) : Positions :=
  match p.insn with
  | .label l => positions.bind l p.offset
  | _ => positions

end Placed

def Insn.Within (limits : Limits) : Insn → Prop
  | .typeOp _ name | .newArrays name _ => limits.text name
  | .field _ m | .method _ m _ => m.Within limits
  | .callSite name desc b => limits.text name ∧ limits.text desc ∧ b.Within limits
  | .ldc v => v.Within limits
  | _ => True

theorem Insn.within_none (insn : Insn) : insn.Within Limits.none := by
  cases insn with
  | field op m => exact ⟨trivial, trivial, trivial⟩
  | method op m b => exact ⟨trivial, trivial, trivial⟩
  | callSite name desc b =>
    have args := fun x (_ : x ∈ b.args) => Loadable.within_none x
    exact ⟨trivial, trivial, ⟨trivial, trivial, trivial⟩, trivial, args⟩
  | ldc v => exact Loadable.within_none v
  | _ => trivial

/-- A reader resolves the constants of the instruction. -/
def Insn.Resolvable : Insn → Prop
  | .callSite _ _ b => b.Resolvable BootstrapTable.nestingLimit
  | .ldc v => v.Resolvable (BootstrapTable.nestingLimit + 1)
  | _ => True

namespace Layout

/-- Instructions one behind the other, from `start` to `finish`. -/
def Chain : Nat → List Placed → Nat → Prop
  | start, [], finish => finish = start
  | start, p :: rest, finish => p.offset = start ∧ Chain (start + p.size) rest finish

theorem chain_append {start finish : Nat} {ps qs : List Placed} :
    Chain start (ps ++ qs) finish ↔ ∃ middle, Chain start ps middle ∧ Chain middle qs finish := by
  induction ps generalizing start with
  | nil => simp [Chain]
  | cons p ps ih =>
    rw [List.cons_append, Chain, ih]
    constructor
    · rintro ⟨hp, middle, hps, hqs⟩
      exact ⟨middle, ⟨hp, hps⟩, hqs⟩
    · rintro ⟨middle, ⟨hp, hps⟩, hqs⟩
      exact ⟨hp, middle, hps, hqs⟩

theorem Chain.le {start finish : Nat} {ps : List Placed} (h : Chain start ps finish) :
    start ≤ finish := by
  induction ps generalizing start with
  | nil => exact Nat.le_of_eq h.symm
  | cons p ps ih =>
    have := ih h.2
    omega

theorem Chain.bounds {start finish : Nat} {ps : List Placed} (h : Chain start ps finish)
    {p : Placed} (hp : p ∈ ps) : start ≤ p.offset ∧ p.offset + p.size ≤ finish := by
  induction ps generalizing start with
  | nil => cases hp
  | cons q ps ih =>
    obtain ⟨here, rest⟩ := h
    rcases List.mem_cons.1 hp with rfl | hp
    · have := rest.le
      omega
    · have := ih rest hp
      omega

/-- The instructions laid out one behind the other, with every label where it was placed last. -/
structure Laid (insns : List Insn) (l : Layout) : Prop where
  insns : l.placed.map Placed.insn = insns
  chain : Chain 0 l.placed l.length
  positions : l.positions = l.placed.foldl Placed.mark Positions.empty

structure Valid (f : Tables) (insns : List Insn) (l : Layout) : Prop extends Laid insns l where
  sound : ∀ p ∈ l.placed, p.Sound f

variable {limits : Limits}

theorem laid_place {done : List Insn} {l : Layout} {p : Placed}
    (h : Laid done { l with placed := l.placed.reverse }) (offset : p.offset = l.length) :
    Laid (done ++ [p.insn])
      ⟨(p :: l.placed).reverse, p.mark l.positions, l.length + p.size⟩ where
  insns := by
    have same := h.insns
    dsimp only at same ⊢
    rw [List.reverse_cons, List.map_append, same]
    rfl
  chain := by
    have chain := h.chain
    dsimp only at chain ⊢
    rw [List.reverse_cons, chain_append]
    exact ⟨l.length, chain, offset, rfl⟩
  positions := by
    have positions := h.positions
    dsimp only at positions ⊢
    rw [List.reverse_cons, List.foldl_append, ← positions]
    rfl

theorem valid_place {f : Tables} {done : List Insn} {l : Layout} {p : Placed}
    (h : Valid f done { l with placed := l.placed.reverse }) (offset : p.offset = l.length)
    (sound : p.Sound f) :
    Valid f (done ++ [p.insn])
      ⟨(p :: l.placed).reverse, p.mark l.positions, l.length + p.size⟩ where
  toLaid := laid_place h.toLaid offset
  sound q hq := by
    rw [List.mem_reverse] at hq
    rcases List.mem_cons.1 hq with rfl | hq
    · exact sound
    · exact h.sound q (List.mem_reverse.2 hq)

theorem grows_place {insn : Insn} (hi : insn.Within limits) (l : Layout) (done : List Insn) :
    Grows limits (place l insn) fun f l' =>
      Valid f done { l with placed := l.placed.reverse } →
      Valid f (done ++ [insn]) { l' with placed := l'.placed.reverse } := by
  cases insn with
  | ldc v =>
    refine .bind (Tables.grows_internLoadable v hi) fun i _ => ?_
    refine .pure fun f hv h => ?_
    refine valid_place (p := ⟨l.length, .ldc v, some i⟩) h rfl fun w same => ?_
    cases same
    exact ⟨i, rfl, hv⟩
  | label x =>
    refine .pure fun f h => ?_
    exact valid_place (p := ⟨l.length, .label x, none⟩) h rfl fun w same => nomatch same
  | _ =>
    refine .pure fun f h => ?_
    exact valid_place (p := ⟨l.length, _, none⟩) h rfl fun w same => nomatch same

theorem grows_ofInsns {insns : List Insn} (hi : ∀ i ∈ insns, i.Within limits) :
    Grows limits (ofInsns insns) fun f l => Valid f insns l := by
  refine .bind (.foldlM (P := fun f done l => Valid f done { l with placed := l.placed.reverse })
    (fun done i mem l => grows_place (hi i mem) l done) [] empty) fun l _ => ?_
  refine .pure fun f h => h ⟨⟨rfl, rfl, rfl⟩, fun p hp => nomatch hp⟩

theorem answers_place (insn : Insn) (l : Layout) (done : List Insn) :
    Answers (place l insn) fun l' => Laid done { l with placed := l.placed.reverse } →
      Laid (done ++ [insn]) { l' with placed := l'.placed.reverse } := by
  cases insn with
  | ldc v =>
    refine .bind .trivial fun i _ => .pure fun h => ?_
    exact laid_place (p := ⟨l.length, .ldc v, some i⟩) h rfl
  | label x => exact .pure fun h => laid_place (p := ⟨l.length, .label x, none⟩) h rfl
  | _ => exact .pure fun h => laid_place (p := ⟨l.length, _, none⟩) h rfl

theorem answers_ofInsns (insns : List Insn) : Answers (ofInsns insns) (Laid insns) := by
  have start : Laid [] { empty with placed := empty.placed.reverse } := ⟨rfl, rfl, rfl⟩
  refine .bind (.foldlM (C := fun done l => Laid done { l with placed := l.placed.reverse })
    (fun done i l h => ?_) start) fun l h => .pure h
  intro s l' t run
  exact answers_place i l done s l' t run h

theorem mem_of_find?_marks {placed : List Placed} {known : Positions} {x : Label} {n : Nat}
    (h : (placed.foldl Placed.mark known).find? x = some n) :
    known.find? x = some n ∨ ∃ p ∈ placed, p.insn = .label x ∧ p.offset = n := by
  induction placed generalizing known with
  | nil => exact .inl h
  | cons p placed ih =>
    rcases ih h with found | ⟨q, hq, label, offset⟩
    · unfold Placed.mark at found
      split at found
      · rename_i y label
        rw [Positions.find?_bind] at found
        split at found
        · rename_i same
          subst same
          cases found
          exact .inr ⟨p, List.mem_cons_self .., label, rfl⟩
        · exact .inl found
      · exact .inl found
    · exact .inr ⟨q, List.mem_cons_of_mem p hq, label, offset⟩

theorem find?_marks_of_mem {placed : List Placed} {known : Positions} {x : Label}
    (h : (∃ n, known.find? x = some n) ∨ ∃ p ∈ placed, p.insn = .label x) :
    ∃ n, (placed.foldl Placed.mark known).find? x = some n := by
  induction placed generalizing known with
  | nil =>
    rcases h with h | ⟨p, hp, _⟩
    · exact h
    · cases hp
  | cons p placed ih =>
    refine ih ?_
    rcases h with ⟨n, hn⟩ | ⟨q, hq, label⟩
    · refine .inl ?_
      unfold Placed.mark
      split
      · rw [Positions.find?_bind]
        split
        · exact ⟨_, rfl⟩
        · exact ⟨n, hn⟩
      · exact ⟨n, hn⟩
    · rcases List.mem_cons.1 hq with rfl | hq
      · refine .inl ⟨q.offset, ?_⟩
        rw [Placed.mark, label, Positions.find?_bind, if_pos rfl]
      · exact .inr ⟨q, hq, label⟩

theorem Chain.boundary {start finish : Nat} {ps : List Placed} (h : Chain start ps finish)
    {p : Placed} (hp : p ∈ ps) :
    p.offset = finish ∨ ∃ q ∈ ps, q.insn.isExecuted = true ∧ q.offset = p.offset := by
  induction ps generalizing start p with
  | nil => cases hp
  | cons q ps ih =>
    obtain ⟨here, rest⟩ := h
    rcases List.mem_cons.1 hp with rfl | hp
    · -- a mark takes no room, so what follows starts where it stands
      by_cases mark : p.insn.isExecuted = true
      · exact .inr ⟨p, List.mem_cons_self .., mark, rfl⟩
      · have flat := Placed.size_mark mark
        cases ps with
        | nil =>
          left
          rw [Chain, flat] at rest
          omega
        | cons r ps =>
          have next : r.offset = p.offset := by
            rw [rest.1, flat, here]
            rfl
          rcases ih rest (List.mem_cons_self ..) with last | ⟨q, hq, executed, same⟩
          · exact .inl (next ▸ last)
          · exact .inr ⟨q, List.mem_cons_of_mem _ hq, executed, next ▸ same⟩
    · rcases ih rest hp with last | ⟨r, hr, executed, same⟩
      · exact .inl last
      · exact .inr ⟨r, List.mem_cons_of_mem _ hr, executed, same⟩

section

variable {insns : List Insn} {l : Layout}

theorem Laid.mem_of_find? (h : Laid insns l) {x : Label} {n : Nat}
    (hx : l.positions.find? x = some n) : ∃ p ∈ l.placed, p.insn = .label x ∧ p.offset = n := by
  rw [h.positions] at hx
  rcases mem_of_find?_marks hx with found | found
  · rw [Positions.find?_empty] at found
    cases found
  · exact found

theorem Laid.find?_of_mem (h : Laid insns l) {x : Label} (hx : Insn.label x ∈ insns) :
    ∃ n, l.positions.find? x = some n := by
  rw [← h.insns, List.mem_map] at hx
  rw [h.positions]
  exact find?_marks_of_mem (.inr hx)

theorem Laid.le_length (h : Laid insns l) {x : Label} {n : Nat}
    (hx : l.positions.find? x = some n) : n ≤ l.length := by
  obtain ⟨p, hp, _, rfl⟩ := h.mem_of_find? hx
  have := (h.chain.bounds hp).2
  omega

end

end Layout

end ClassWeave
