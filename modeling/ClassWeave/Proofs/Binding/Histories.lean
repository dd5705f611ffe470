import Mathlib.Data.List.Nodup
import Mathlib.Data.List.Perm.Basic
import Mathlib.Tactic.Common
import ClassWeave.Proofs.Binding.Decoded
import ClassWeave.Proofs.Binding.Placing
import ClassWeave.Renaming

/-!
# Labels through the history of a body

A body is read or built, and then edited in any order: labels are taken from it, instructions are
put in, it is renamed and moved, widened and recomputed. Whatever it goes through, every label that
it names is bound, so that it can be written. As long as no label is bound twice at the outset and
the numbers do not run out, every label that it names is bound once, and the next label is new.
-/

set_option autoImplicit false

namespace ClassWeave

section Splicing

def Insn.isReturn : Insn → Bool
  | .simple op => op.isReturn
  | _ => false

def spliceEach : List (List Insn) → List Insn → List Insn
  | _, [] => []
  | [], insn :: rest => insn :: spliceEach [] rest
  | splice :: splices, insn :: rest =>
    if insn.isReturn then splice ++ insn :: spliceEach splices rest
    else insn :: spliceEach (splice :: splices) rest

def Code.spliceEach (c : Code) (splices : List (List Insn)) : Code :=
  if c.returns.isEmpty then c
  else { c with insns := ClassWeave.spliceEach splices c.insns }.markStale

theorem Code.length_returns (c : Code) : c.returns.length = c.insns.countP Insn.isReturn := by
  rw [returns, List.length_filterMap_eq_countP]
  refine List.countP_congr fun insn _ => ?_
  cases insn with
  | simple op =>
    dsimp only [Insn.isReturn]
    cases op.isReturn <;> simp
  | _ => simp [Insn.isReturn]

theorem spliceEach_perm (splices : List (List Insn)) (insns : List Insn)
    (each : splices.length = insns.countP Insn.isReturn) :
    (spliceEach splices insns).Perm (insns ++ splices.flatten) := by
  induction insns generalizing splices with
  | nil =>
    rw [List.length_eq_zero_iff.1 each]
    exact .refl _
  | cons insn rest ih =>
    rw [List.countP_cons] at each
    cases splices with
    | nil => exact (ih [] (by rw [List.length_nil] at each ⊢; omega)).cons insn
    | cons splice splices =>
      rw [List.length_cons] at each
      unfold spliceEach
      split
      · rename_i isReturn
        rw [if_pos isReturn] at each
        rw [List.flatten_cons, List.cons_append]
        refine List.perm_middle.trans (.cons insn ?_)
        refine ((ih splices (by omega)).append_left splice).trans ?_
        rw [← List.append_assoc, ← List.append_assoc]
        exact List.perm_append_comm.append_right _
      · rename_i other
        rw [if_neg other] at each
        exact (ih (splice :: splices) (by rw [List.length_cons]; omega)).cons insn

end Splicing

section Renaming

variable {r : Renaming} {c : Code}

theorem bound?_rename (r : Renaming) (insn : Insn) : (r.insn insn).bound? = insn.bound? := by
  cases insn <;> rfl

theorem targets_rename (r : Renaming) (insn : Insn) : (r.insn insn).targets = insn.targets := by
  cases insn <;> rfl

theorem boundLabels_rename (r : Renaming) (insns : List Insn) :
    boundLabels (insns.map r.insn) = boundLabels insns := by
  rw [boundLabels, List.filterMap_map]
  exact List.filterMap_congr fun insn _ => bound?_rename r insn

theorem uninitSites_rename (r : Renaming) (f : LabelledFrame) :
    ClassFile.uninitSites (r.frame f).2 = ClassFile.uninitSites f.2 := by
  show List.filterMap _ (f.2.locals.map r.vtype ++ f.2.stack.map r.vtype) = _
  rw [← List.map_append, List.filterMap_map]
  refine List.filterMap_congr fun t _ => ?_
  cases t <;> rfl

theorem binds_rename {l : Label} : (r.code c).Binds l ↔ c.Binds l := by
  show Insn.label l ∈ c.insns.map r.insn ↔ _
  rw [← mem_boundLabels, boundLabels_rename, mem_boundLabels]
  rfl

theorem Code.Closed.rename (h : c.Closed) (r : Renaming) : (r.code c).Closed := by
  have frame : ∀ f : LabelledFrame, c.BindsFrame f → (r.code c).BindsFrame (r.frame f) :=
    fun f bound => ⟨binds_rename.2 bound.place, fun l site =>
      binds_rename.2 (bound.sites l (uninitSites_rename r f ▸ site))⟩
  constructor
  case targets =>
    intro i mem l named
    obtain ⟨j, found, rfl⟩ := List.mem_map.1 mem
    exact binds_rename.2 (h.targets j found l (targets_rename r j ▸ named))
  case handlers =>
    intro e mem
    obtain ⟨old, found, rfl⟩ := List.mem_map.1 mem
    exact (h.handlers old found).imp binds_rename.2 (.imp binds_rename.2 binds_rename.2)
  case locals =>
    intro v mem
    obtain ⟨old, found, rfl⟩ := List.mem_map.1 mem
    exact (h.locals old (List.mem_of_mem_filter found)).imp binds_rename.2 binds_rename.2
  case frames =>
    intro f mem
    have known : (r.code c).frames.getD [] = (c.frames.getD []).map r.frame := by
      show (c.frames.map (·.map r.frame)).getD [] = _
      cases c.frames <;> rfl
    rw [known] at mem
    obtain ⟨old, found, rfl⟩ := List.mem_map.1 mem
    exact frame old (h.frames old found)
  case hints =>
    intro f mem
    obtain ⟨old, found, rfl⟩ := List.mem_map.1 mem
    exact frame old (h.hints old found)

theorem Code.Apart.rename (h : c.Apart) (r : Renaming) : (r.code c).Apart := by
  refine ⟨?_, fun l stands => h.below l (binds_rename.1 stands)⟩
  show (boundLabels (c.insns.map r.insn)).Nodup
  rw [boundLabels_rename]
  exact h.once

end Renaming

section Built

theorem Code.closed_ofInsns {insns : List Insn}
    (bound : ∀ l ∈ (Code.ofInsns insns).named, Insn.label l ∈ insns) :
    (Code.ofInsns insns).Closed := by
  refine ⟨fun i mem l named => bound l ?_, nofun, nofun, nofun, nofun⟩
  refine List.mem_append_left _ (List.mem_append_left _ (List.mem_append_left _ ?_))
  exact List.mem_append_left _ (List.mem_flatMap.2 ⟨i, mem, named⟩)

theorem le_max_labels (a b : UInt32) : a ≤ max a b ∧ b ≤ max a b := by
  show a ≤ (if a ≤ b then b else a) ∧ b ≤ if a ≤ b then b else a
  split
  · exact ⟨‹a ≤ b›, UInt32.le_refl b⟩
  · rename_i above
    exact ⟨UInt32.le_refl a, UInt32.le_of_lt (UInt32.not_le.1 above)⟩

theorem Code.le_foldl_labels (insns : List Insn) (known : UInt32) :
    known ≤ insns.foldl (fun bound insn =>
      match insn with
      | .label l => max bound (l.number + 1)
      | _ => bound) known := by
  induction insns generalizing known with
  | nil => exact UInt32.le_refl known
  | cons insn rest ih =>
    refine UInt32.le_trans ?_ (ih _)
    cases insn with
    | label x => exact (le_max_labels ..).1
    | _ => exact UInt32.le_refl known

theorem Code.lt_labelBound {insns : List Insn} {l : Label} (mem : Insn.label l ∈ insns)
    (small : l.number ≠ 4294967295) : l.number < labelBound insns := by
  have next : l.number < l.number + 1 := by
    have := l.number.toNat_lt
    have : l.number.toNat ≠ 4294967295 := fun same => small (UInt32.toNat_inj.1 same)
    rw [UInt32.lt_iff_toNat_lt, UInt32.toNat_add, UInt32.toNat_one, Nat.mod_eq_of_lt (by omega)]
    omega
  obtain ⟨before, after, rfl⟩ := List.append_of_mem mem
  rw [labelBound, List.foldl_append, List.foldl_cons]
  exact UInt32.lt_of_lt_of_le next (UInt32.le_trans (le_max_labels ..).2 (le_foldl_labels after _))

end Built

/-- A body in the course of its history, and the labels that were taken from it. -/
structure Draft where
  code : Code
  taken : List Label

/-- The instructions may be put into the body: they bind labels that were taken from it and that
stand nowhere, each once, and name only labels of their own or of the body. -/
structure Draft.Takes (d : Draft) (added : List Insn) : Prop where
  once : (boundLabels added).Nodup
  taken : ∀ l ∈ boundLabels added, l ∈ d.taken ∧ ¬ d.code.Binds l
  fits : ∀ i ∈ added, ∀ l ∈ i.targets, d.code.Binds l ∨ l ∈ boundLabels added

/-- The histories of a body. The careful ones begin with a body in which no label is bound twice,
be it named or not, and stay within the numbers that labels may have. -/
inductive Draft.Arises (careful : Prop) : Draft → Prop where
  | decoded {bytes : Bytes} {c : ClassFile} {m : Method} {code : Code}
      (parsed : ClassFile.parse bytes = .ok c) (mem : m ∈ c.methods) (body : m.code = some code) :
      Draft.Arises careful ⟨code, []⟩
  | built {insns : List Insn}
      (bound : ∀ l ∈ (Code.ofInsns insns).named, (boundLabels insns).count l = 1)
      (small : ∀ l ∈ boundLabels insns, l.number ≠ 4294967295)
      (once : careful → (boundLabels insns).Nodup) : Draft.Arises careful ⟨Code.ofInsns insns, []⟩
  | took {d : Draft} (before : Draft.Arises careful d) (room : careful → d.code.HasRoom 1) :
      Draft.Arises careful ⟨d.code.newLabel.2, d.code.newLabel.1 :: d.taken⟩
  | prepended {d : Draft} (before : Draft.Arises careful d) {added : List Insn}
      (takes : d.Takes added) :
      Draft.Arises careful { d with code := d.code.prepend added }
  | spliced {d : Draft} (before : Draft.Arises careful d) {splices : List (List Insn)}
      (each : splices.length = d.code.returns.length) (takes : d.Takes splices.flatten) :
      Draft.Arises careful { d with code := d.code.spliceEach splices }
  | invalidated {d : Draft} (before : Draft.Arises careful d) :
      Draft.Arises careful { d with code := d.code.markStale }
  | renamed {d : Draft} (before : Draft.Arises careful d) (r : Renaming) :
      Draft.Arises careful { d with code := r.code d.code }
  | rehomed {d : Draft} (before : Draft.Arises careful d) (r : Renaming) {m : Method} {code : Code}
      (body : m.code = some d.code) (copy : (r.rehome m).code = some code) :
      Draft.Arises careful { d with code := code }
  | widened {d : Draft} (before : Draft.Arises careful d) {far : List (Option Int)} {code : Code}
      {split : Bool} (whole : far.length = d.code.insns.length)
      (run : d.code.widen far = .ok (code, split))
      (room : careful → d.code.HasRoom d.code.executed.length) :
      Draft.Arises careful { d with code := code }
  | recomputed {d : Draft} (before : Draft.Arises careful d) {h : Hierarchy} {owner : String}
      {m : Method} {withFrames : Bool} {code : Code}
      (run : reframe h owner m d.code withFrames = .ok code)
      (room : careful → d.code.HasRoom (d.code.executed.length + 1)) :
      Draft.Arises careful { d with code := code }

namespace Code

variable {c : Code} {splices : List (List Insn)}

theorem Closed.spliceEach (h : c.Closed) (each : splices.length = c.returns.length)
    (fits : ∀ i ∈ splices.flatten, ∀ l ∈ i.targets, c.Binds l ∨ l ∈ boundLabels splices.flatten) :
    (c.spliceEach splices).Closed := by
  unfold Code.spliceEach
  split
  · exact h
  · exact (h.insert (spliceEach_perm _ _ (each.trans c.length_returns)) fits).markStale

theorem Apart.spliceEach (h : c.Apart) (each : splices.length = c.returns.length)
    (once : (boundLabels splices.flatten).Nodup)
    (unbound : ∀ l ∈ boundLabels splices.flatten, ¬ c.Binds l ∧ l.number < c.nextLabel) :
    (c.spliceEach splices).Apart := by
  unfold Code.spliceEach
  split
  · exact h
  · exact (h.insert (spliceEach_perm _ _ (each.trans c.length_returns)) once unbound).markStale

@[simp] theorem nextLabel_spliceEach (c : Code) (splices : List (List Insn)) :
    (c.spliceEach splices).nextLabel = c.nextLabel := by
  unfold Code.spliceEach
  split
  · rfl
  · exact nextLabel_markStale _

end Code

namespace Draft.Arises

variable {careful : Prop} {d : Draft}

theorem closed (h : Draft.Arises careful d) : d.code.Closed := by
  induction h with
  | decoded parsed mem body => exact (ClassFile.labels_of_parse parsed mem body).1
  | built bound small once =>
    refine Code.closed_ofInsns fun l named => mem_boundLabels.1 ?_
    exact List.count_pos_iff.1 (bound l named ▸ Nat.one_pos)
  | took before room ih =>
    exact ih.withInsns (fun _ stands => stands) ih.targets
  | prepended before takes ih =>
    exact (ih.insert List.perm_append_comm takes.fits).markStale
  | spliced before each takes ih => exact ih.spliceEach each takes.fits
  | invalidated before ih => exact ih.markStale
  | renamed before r ih => exact ih.rename r
  | rehomed before r body copy ih =>
    rw [Renaming.rehome, body] at copy
    cases copy
    exact (ih.rename r).markStale
  | widened before whole run room ih => exact ih.widen whole run
  | recomputed before run room ih => exact ih.reframe run

theorem apart (h : Draft.Arises careful d) (cares : careful) :
    d.code.Apart ∧ ∀ l ∈ d.taken, l.number < d.code.nextLabel := by
  -- an edit that binds new labels leaves those that were taken
  have gained : ∀ {c c' : Code} {taken : List Label},
      c.Apart ∧ (∀ l ∈ taken, l.number < c.nextLabel) → (∃ fresh, c.Gains c' fresh) →
        c'.Apart ∧ ∀ l ∈ taken, l.number < c'.nextLabel := by
    rintro c c' taken ⟨apart, low⟩ ⟨fresh, gains⟩
    refine ⟨apart.gains gains, fun l mem => ?_⟩
    have := UInt32.lt_iff_toNat_lt.1 (low l mem)
    exact UInt32.lt_iff_toNat_lt.2 (Nat.lt_of_lt_of_le this gains.next)
  induction h with
  | decoded parsed mem body =>
    exact ⟨(ClassFile.labels_of_parse parsed mem body).2, fun l mem => nomatch mem⟩
  | built bound small once =>
    refine ⟨⟨once cares, fun l stands => ?_⟩, fun l mem => nomatch mem⟩
    exact Code.lt_labelBound stands (small l (mem_boundLabels.2 stands))
  | @took d before room ih =>
    have next := Code.toNat_nextLabel_newLabel (room cares)
    have below : ∀ l : Label, l.number.toNat < d.code.nextLabel.toNat + 1 →
        l.number < d.code.newLabel.2.nextLabel := fun l low =>
      UInt32.lt_iff_toNat_lt.2 (next ▸ low)
    refine ⟨⟨ih.1.once, fun l stands => below l ?_⟩, fun l mem => below l ?_⟩
    · exact Nat.lt_succ_of_lt (UInt32.lt_iff_toNat_lt.1 (ih.1.below l stands))
    · rcases List.mem_cons.1 mem with rfl | mem
      · exact Nat.lt_succ_self _
      · exact Nat.lt_succ_of_lt (UInt32.lt_iff_toNat_lt.1 (ih.2 l mem))
  | prepended before takes ih =>
    refine ⟨(ih.1.insert List.perm_append_comm takes.once fun l mem => ?_).markStale, ?_⟩
    · exact ⟨(takes.taken l mem).2, ih.2 l (takes.taken l mem).1⟩
    · simpa only [Code.prepend, Code.nextLabel_markStale] using ih.2
  | spliced before each takes ih =>
    refine ⟨ih.1.spliceEach each takes.once fun l mem => ?_, ?_⟩
    · exact ⟨(takes.taken l mem).2, ih.2 l (takes.taken l mem).1⟩
    · simpa only [Code.nextLabel_spliceEach] using ih.2
  | invalidated before ih =>
    exact ⟨ih.1.markStale, by simpa only [Code.nextLabel_markStale] using ih.2⟩
  | renamed before r ih => exact ⟨ih.1.rename r, ih.2⟩
  | rehomed before r body copy ih =>
    rw [Renaming.rehome, body] at copy
    cases copy
    refine ⟨(ih.1.rename r).markStale, fun l mem => ?_⟩
    rw [Code.nextLabel_markStale]
    exact ih.2 l mem
  | widened before whole run room ih => exact gained ih (Code.gains_widen (room cares) whole run)
  | recomputed before run room ih => exact gained ih (gains_reframe (room cares) run)

end Draft.Arises

/-- Whatever a body has gone through, a label that it names is bound, and writing it never fails for
want of a label. In a careful history such a label is bound once and lies below the next one, which
is in use nowhere: not bound, not named, and not taken before. -/
theorem labels_of_history {careful : Prop} {d : Draft} (h : Draft.Arises careful d) :
    (∀ l ∈ d.code.named, d.code.Binds l) ∧
      (∀ (t : ClassFile.BodyTarget) (tables : Tables) (l : Label),
        (ClassFile.encodeCode t d.code tables).1 ≠ .error (.unboundLabel l)) ∧
      (careful → (∀ l ∈ d.code.named, (boundLabels d.code.insns).count l = 1 ∧
          l.number < d.code.nextLabel) ∧
        ¬ d.code.Binds d.code.newLabel.1 ∧ d.code.newLabel.1 ∉ d.code.named ∧
        d.code.newLabel.1 ∉ d.taken) := by
  have closed := h.closed
  refine ⟨fun l named => closed.binds named, fun t tables l failed => ?_, fun cares => ?_⟩
  · have finds := ClassFile.finds_encodeCode t closed tables
    rw [failed] at finds
    exact finds l rfl
  · obtain ⟨apart, low⟩ := h.apart cares
    refine ⟨fun l named => ⟨?_, ?_⟩, apart.not_binds, ?_, ?_⟩
    · exact List.count_eq_one_of_mem apart.once (mem_boundLabels.2 (closed.binds named))
    · exact apart.below l (closed.binds named)
    · exact fun named => apart.not_binds (closed.binds named)
    · exact fun mem => UInt32.lt_irrefl _ (low _ mem)

/-- A loop, and a return behind it that no path reaches. -/
def loopingCode : Code :=
  Code.ofInsns [.label ⟨0⟩, .simple Opcode.iconst0, .jump Opcode.ifeq ⟨0⟩,
    .simple Opcode.returnVoid, .simple Opcode.returnVoid]

/-- A branch to a label that was taken is put in front of the loop, and the frames are computed. -/
theorem labels_loopingCode : ∃ c',
    reframe Hierarchy.empty "A" ⟨⟨9⟩, "m", "()V", none, []⟩
      (loopingCode.newLabel.2.prepend [.jump Opcode.goto ⟨1⟩, .label ⟨1⟩]) true = .ok c' ∧
    Draft.Arises True ⟨c', [⟨1⟩]⟩ ∧ c'.named = [⟨1⟩, ⟨0⟩, ⟨0⟩, ⟨2⟩] ∧
    (∀ l ∈ c'.named, (boundLabels c'.insns).count l = 1 ∧ l.number < c'.nextLabel) ∧
    c'.newLabel.1 = ⟨3⟩ ∧ ¬ c'.Binds ⟨3⟩ ∧
    ∀ (t : ClassFile.BodyTarget) (tables : Tables) (l : Label),
      (ClassFile.encodeCode t c' tables).1 ≠ .error (.unboundLabel l) := by
  have computed : ((reframe Hierarchy.empty "A" ⟨⟨9⟩, "m", "()V", none, []⟩
      (loopingCode.newLabel.2.prepend [.jump Opcode.goto ⟨1⟩, .label ⟨1⟩]) true).toOption.any
        fun c' => c'.named = [⟨1⟩, ⟨0⟩, ⟨0⟩, ⟨2⟩] ∧ c'.newLabel.1 = ⟨3⟩) = true := by
    decide +kernel
  obtain ⟨c', run, computed⟩ := exists_ok_of_any computed
  obtain ⟨named, next⟩ := of_decide_eq_true computed
  have built : Draft.Arises True ⟨loopingCode, []⟩ :=
    .built (by decide) (by decide) fun _ => by decide
  have took : Draft.Arises True ⟨loopingCode.newLabel.2, [⟨1⟩]⟩ := .took built fun _ => by decide
  have takes : Draft.Takes ⟨loopingCode.newLabel.2, [⟨1⟩]⟩ [.jump Opcode.goto ⟨1⟩, .label ⟨1⟩] := by
    refine ⟨by decide, fun l mem => ?_, fun i mem l named => .inr ?_⟩
    · cases List.mem_singleton.1 mem
      exact ⟨List.mem_singleton_self _, by decide⟩
    · rcases List.mem_cons.1 mem with rfl | mem
      · exact named
      · rw [List.mem_singleton.1 mem] at named
        cases named
  have edited : Draft.Arises True ⟨c', [⟨1⟩]⟩ :=
    .recomputed (.prepended took takes) run fun _ => by decide
  obtain ⟨_, written, careful⟩ := labels_of_history edited
  obtain ⟨once, unbound, _⟩ := careful trivial
  exact ⟨c', run, edited, named, once, next, next ▸ unbound, written⟩

/-- The highest label that can be numbered, with a branch, and a return that no path reaches. -/
def lastLabelCode : Code :=
  Code.ofInsns [.label ⟨4294967294⟩, .jump Opcode.goto ⟨0⟩, .label ⟨0⟩, .simple Opcode.nop,
    .simple Opcode.returnVoid, .simple Opcode.returnVoid]

/-- One label stands twice in front of a loop, and nothing names it. -/
def twiceLabelledCode : Code :=
  Code.ofInsns [.label ⟨0⟩, .simple Opcode.nop, .label ⟨5⟩, .label ⟨0⟩, .simple Opcode.nop,
    .jump Opcode.goto ⟨5⟩]

/-- Careless histories bind a label twice: after one more label the numbers start over and the frame
of the unreachable end takes the label of the branch; and a label that stood twice is made the place
of a frame. -/
theorem bound_twice_careless :
    (∃ c', reframe Hierarchy.empty "A" ⟨⟨9⟩, "m", "()V", none, []⟩ lastLabelCode.newLabel.2 true =
        .ok c' ∧ Draft.Arises False ⟨c', [⟨4294967295⟩]⟩ ∧ ⟨0⟩ ∈ c'.named ∧
      (boundLabels c'.insns).count ⟨0⟩ = 2) ∧
    ∃ c', reframe Hierarchy.empty "A" ⟨⟨9⟩, "m", "()V", none, []⟩ twiceLabelledCode true =
        .ok c' ∧ Draft.Arises False ⟨c', []⟩ ∧ ⟨0⟩ ∈ c'.named ∧
      (boundLabels c'.insns).count ⟨0⟩ = 2 := by
  have built : Draft.Arises False ⟨lastLabelCode, []⟩ :=
    .built (by decide) (by decide) nofun
  have took : Draft.Arises False ⟨lastLabelCode.newLabel.2, [⟨4294967295⟩]⟩ := .took built nofun
  have built' : Draft.Arises False ⟨twiceLabelledCode, []⟩ :=
    .built (by decide) (by decide) nofun
  have wrapped : ((reframe Hierarchy.empty "A" ⟨⟨9⟩, "m", "()V", none, []⟩
      lastLabelCode.newLabel.2 true).toOption.any fun c' =>
        ⟨0⟩ ∈ c'.named ∧ (boundLabels c'.insns).count ⟨0⟩ = 2) = true := by decide +kernel
  have doubled : ((reframe Hierarchy.empty "A" ⟨⟨9⟩, "m", "()V", none, []⟩
      twiceLabelledCode true).toOption.any fun c' =>
        ⟨0⟩ ∈ c'.named ∧ (boundLabels c'.insns).count ⟨0⟩ = 2) = true := by decide +kernel
  obtain ⟨c, run, wrapped⟩ := exists_ok_of_any wrapped
  obtain ⟨c', run', doubled⟩ := exists_ok_of_any doubled
  exact ⟨⟨c, run, .recomputed took run nofun, of_decide_eq_true wrapped⟩,
    ⟨c', run', .recomputed built' run' nofun, of_decide_eq_true doubled⟩⟩

end ClassWeave
