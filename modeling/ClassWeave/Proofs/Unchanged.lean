import Mathlib.Data.List.InsertIdx
import ClassWeave.Proofs.Callees
import ClassWeave.Proofs.Idempotence

/-!
# Edits that leave the class

An edit that reports no change has made none, and an edit whose source is missing has touched
nothing before it noticed. So the class that a chain throws away is the one that it started from,
and an edit that is passed over could as well not be there.
-/

set_option autoImplicit false

namespace ClassWeave

theorem NeverMissing.checked {α : Type} {p : Prop} [Decidable p] {context : String} {m : Mismatch}
    {rest : Unit → Except EditError α} (passed : NeverMissing (rest ())) :
    NeverMissing (if p then Synthesis.mismatch context m >>= rest else rest ()) := by
  refine .ite ?_ passed
  exact fun _ error => nomatch error

namespace Edit

variable {ctx : EditContext} {e : Edit} {c c' : ClassFile} {cb : Callback}
  {callback : MethodDescriptor}

/-! A callback looks up nothing in the batch. -/

theorem neverMissing_callbackSites (cb : Callback) (c : ClassFile) :
    NeverMissing (callbackSites cb c) := by
  unfold callbackSites
  split
  · split
    · exact .ok _
    · exact fun _ error => nomatch error
  · exact .ite (.mismatch _ _) (.ok _)

theorem neverMissing_callbackCall (hookedStatic : Bool) (passed : List FieldType)
    (pending : Option (FieldType × FieldType)) (temp : UInt16) (context : String) :
    NeverMissing (callbackCall cb hookedStatic passed pending temp context) := by
  unfold callbackCall
  cases pending with
  | none => exact .ok _
  | some value =>
    exact .bind (x := Synthesis.convert value.1 value.2 context)
      (neverMissing_convert context _ _) fun _ => .ok _

theorem neverMissing_callbackInsns (hookedStatic : Bool) (hooked : MethodDescriptor)
    (temp : UInt16) (context : String) :
    NeverMissing (callbackInsns cb hookedStatic hooked callback temp context) := by
  unfold callbackInsns
  refine .checked (.checked (.ite (.ok _) ?_))
  refine .bind (neverMissing_callbackCall _ _ _ _ _) fun call => ?_
  split
  · refine .ite ?_ (.ok _)
    split
    · exact .mismatch _ _
    · exact .bind (neverMissing_convert context _ _) fun _ => .ok _
  · exact .checked (.ok _)

theorem neverMissing_spliceMethod (owner : String) (m : Method) :
    NeverMissing (spliceMethod cb callback owner m) := by
  unfold spliceMethod
  cases m.code with
  | none => exact .mismatch _ _
  | some code =>
    refine .ite (.ok _) (.bind (.orBadFormat _) fun hooked => ?_)
    refine .bind (neverMissing_callbackInsns _ _ _ _) fun insns => ?_
    cases insns with
    | some insns => exact .ok _
    | none => exact .ite (.ok _) (.mismatch _ _)

theorem neverMissing_outcomeAt (i : Nat) : NeverMissing (outcomeAt cb callback c i) := by
  unfold outcomeAt
  split
  · exact .ok _
  · exact neverMissing_spliceMethod _ _

theorem neverMissing_spliceAll (sites : List Nat) (matched changed : Bool) :
    NeverMissing (spliceAll cb callback sites matched changed c).1 := by
  induction sites generalizing matched changed c with
  | nil => exact .ok _
  | cons i rest ih =>
    have here : NeverMissing (outcomeAt cb callback c i) := neverMissing_outcomeAt i
    rw [spliceAll_cons]
    cases outcome : outcomeAt cb callback c i with
    | error cause =>
      rw [outcome] at here
      intro source missing
      cases missing
      exact here source rfl
    | ok outcome => exact ih _ _

theorem neverMissing_applyCallback (cb : Callback) (c : ClassFile) :
    NeverMissing (applyCallback cb c).1 := by
  unfold applyCallback
  rw [run_get]
  refine neverMissing_bind (neverMissing_callbackSites cb c) fun sites _ => ?_
  refine neverMissing_bind (.orBadFormat _) fun callback _ => ?_
  refine neverMissing_bind (neverMissing_spliceAll sites false false) fun done _ => ?_
  obtain ⟨matched, changed⟩ := done
  cases matched with
  | false => exact fun _ error => nomatch error
  | true => exact .ok changed

theorem neverMissing_applyEntryPoint (legacy component engine : String) :
    NeverMissing (applyEntryPoint ctx legacy component engine c).1 := by
  rw [applyEntryPoint_run]
  split
  · exact .ok _
  · split
    · exact .ok _
    · exact .ok _

theorem eq_of_unchanged (run : (e.apply ctx).run c = (.ok false, c')) : c' = c := by
  have added (additive : e.Additive) : c' = c := (added_of_run additive run).kept rfl
  cases e with
  | injectCallback cb =>
    obtain ⟨sites, callback, located, _, spliced⟩ := applyCallback_ok_iff.1 run
    obtain ⟨all, _, changes_iff⟩ := splicedAll_of_run (nodup_callbackSites located) spliced
    exact all.eq_of_no_splice fun splices => by simpa using changes_iff.2 (.inr splices)
  | replaceMethod name desc delegate invoke =>
    have settles : (Edit.replaceMethod name desc delegate invoke).Settles ctx c c' false :=
      settles_applyDelegate run
    by_contra differs
    simpa using settles.exact.2 differs
  | appletToPanel legacy component engine =>
    replace run := (applyEntryPoint_run ctx legacy component engine c).symm.trans run
    split at run
    · cases run
      rfl
    · split at run
      · cases run
        rfl
      · cases run
  | _ => exact added trivial

theorem eq_of_missing {source : String}
    (run : (e.apply ctx).run c = (.error (.missingSource source), c')) : c' = c := by
  have present (additive : e.Additive) : c' = c := (present_of_missing additive run).1
  have reported := congrArg Prod.fst run
  cases e with
  | injectCallback cb => exact absurd reported (neverMissing_applyCallback cb c source)
  | replaceMethod name desc delegate invoke =>
    exact absurd reported (neverMissing_applyDelegate name desc delegate invoke source)
  | appletToPanel legacy component engine =>
    exact absurd reported (neverMissing_applyEntryPoint legacy component engine source)
  | _ => exact present trivial

end Edit

namespace Group

variable {ctx : EditContext} {name : String} {c last : ClassFile}

theorem Ran.eq_of_unchanged {chain : List Edit} {changed : Bool} {missing : List String}
    (ran : Ran ctx chain c last changed missing) (unchanged : changed = false) : last = c := by
  induction ran with
  | done c => rfl
  | applied step _ ih =>
    obtain ⟨rfl, later⟩ := Bool.or_eq_false_iff.1 unchanged
    rw [ih later, Edit.eq_of_unchanged step]
  | passedOver step _ ih => rw [ih unchanged, Edit.eq_of_missing step]

theorem applyAll_append (before behind : List Edit) (c : ClassFile) (changed : Bool)
    (missing : List String) :
    applyAll ctx name (before ++ behind) c changed missing =
      (applyAll ctx name before c changed missing).bind fun (c, changed, missing) =>
        applyAll ctx name behind c changed missing.reverse := by
  induction before generalizing c changed missing with
  | nil => simp [applyAll, Except.bind]
  | cons e before ih =>
    rw [List.cons_append, applyAll, applyAll]
    split
    · exact ih _ _ _
    · exact ih _ _ _
    · rfl

theorem applyAll_missing (chain : List Edit) (c : ClassFile) (changed : Bool)
    (missing : List String) :
    applyAll ctx name chain c changed missing =
      (applyAll ctx name chain c changed []).map fun (c, changed, more) =>
        (c, changed, missing.reverse ++ more) := by
  induction chain generalizing c changed missing with
  | nil => simp [applyAll, Except.map]
  | cons e rest ih =>
    rw [applyAll, applyAll]
    split
    · exact ih _ _ _
    · rename_i source left _
      rw [ih left changed (source :: missing), ih left changed [source]]
      cases applyAll ctx name rest left changed [] <;> simp [Except.map]
    · rfl

theorem insertIdx_length_append {α : Type} (before behind : List α) (a : α) :
    (before ++ behind).insertIdx before.length a = before ++ a :: behind := by
  induction before with
  | nil => simp
  | cons b before ih => simp [ih]

theorem applyAll_passOver {e : Edit} {before behind : List Edit} {c reached left : ClassFile}
    {changed : Bool} {missing : List String} {source : String}
    (ran : applyAll ctx name before c false [] = .ok (reached, changed, missing))
    (step : (e.apply ctx).run reached = (.error (.missingSource source), left)) :
    applyAll ctx name (before ++ e :: behind) c false [] =
      (applyAll ctx name (before ++ behind) c false []).map fun (c, changed, all) =>
        (c, changed, all.insertIdx missing.length source) := by
  rw [applyAll_append, applyAll_append, ran]
  simp only [Except.bind]
  rw [applyAll, step, Edit.eq_of_missing step]
  dsimp only
  rw [applyAll_missing behind reached changed (source :: missing.reverse),
    applyAll_missing behind reached changed missing.reverse]
  cases applyAll ctx name behind reached changed [] <;> simp [Except.map, insertIdx_length_append]

/-- Nothing that an edit does is lost. If a chain gives no new bytes, the class behind its last edit
is the one read from the bytes. An edit that misses its source leaves the class as it was, and the
chain comes out as it would without that edit, but for its entry among the missing ones. -/
theorem no_edit_lost (ctx : EditContext) (name : String) (bytes : Bytes) (chain : List Edit) :
    (∀ o, weaveClass ctx name bytes chain = .ok o → o.bytes = none →
      ∃ c, ClassFile.parse bytes = .ok c ∧
        applyAll ctx name chain c false [] = .ok (c, false, o.missing)) ∧
    ∀ before e behind, chain = before ++ e :: behind →
      ∀ c reached left changed missing source, ClassFile.parse bytes = .ok c →
        applyAll ctx name before c false [] = .ok (reached, changed, missing) →
        (e.apply ctx).run reached = (.error (.missingSource source), left) →
        left = reached ∧
          weaveClass ctx name bytes chain =
            (weaveClass ctx name bytes (before ++ behind)).map fun o =>
              { o with missing := o.missing.insertIdx missing.length source } := by
  constructor
  · intro o woven kept
    obtain ⟨c, read, woven⟩ := bind_ok_iff.1 woven
    obtain ⟨⟨last, changed, missing⟩, run, woven⟩ := bind_ok_iff.1 woven
    cases changed with
    | true =>
      obtain ⟨new, written, woven⟩ := bind_ok_iff.1 woven
      cases woven
      cases kept
    | false =>
      cases woven
      obtain ⟨later, more, ran, same, _⟩ := ran_of_applyAll run
      have unchanged : last = c := ran.eq_of_unchanged same.symm
      exact ⟨c, ok_of_mapError read, unchanged ▸ run⟩
  · rintro before e behind rfl c reached left changed missing source read ran step
    refine ⟨Edit.eq_of_missing step, ?_⟩
    simp only [weaveClass, read, Except.mapError, bind, Except.bind, applyAll_passOver ran step]
    cases applyAll ctx name (before ++ behind) c false [] with
    | error cause => rfl
    | ok outcome =>
      obtain ⟨last, changed, all⟩ := outcome
      cases changed with
      | false => rfl
      | true =>
        cases written : last.encode ctx.hierarchy <;>
          simp [Except.map, pure, Except.pure, written]

def strayCopy : Edit := .copyMethod ⟨"b", "run", "()V"⟩ "start"

/-- The chain that only asks for the class in vain gives no bytes; behind an edit that changes the
class, it adds its entry to the report. -/
theorem no_edit_lost_strayCopy : ∃ c reached,
    ClassFile.parse bareClass = .ok c ∧
    applyAll Edit.noContext "a" [strayCopy] c false [] = .ok (c, false, ["b"]) ∧
    (strayCopy.apply Edit.noContext).run reached = (.error (.missingSource "b"), reached) ∧
    weaveClass Edit.noContext "a" bareClass [.addInterface "i", strayCopy] =
      (weaveClass Edit.noContext "a" bareClass [.addInterface "i"]).map fun o =>
        { o with missing := o.missing.insertIdx 0 "b" } := by
  have computed : ((ClassFile.parse bareClass).toOption.any fun c =>
      (applyAll Edit.noContext "a" [.addInterface "i"] c false []).toOption.any fun reached =>
        decide (reached.2 = (true, []) ∧ ((strayCopy.apply Edit.noContext).run reached.1).1 =
          .error (.missingSource "b"))) = true := by
    decide +kernel
  obtain ⟨c, read, computed⟩ := exists_ok_of_any computed
  obtain ⟨⟨reached, changed, missing⟩, ran, computed⟩ := exists_ok_of_any computed
  obtain ⟨same, step⟩ := of_decide_eq_true computed
  cases same
  have woven : weaveClass Edit.noContext "a" bareClass [strayCopy] = .ok ⟨"a", none, ["b"]⟩ := by
    decide +kernel
  obtain ⟨c', read', kept⟩ := (no_edit_lost Edit.noContext "a" bareClass [strayCopy]).1 _ woven rfl
  cases read.symm.trans read'
  obtain ⟨same, passed⟩ := (no_edit_lost Edit.noContext "a" bareClass
    [.addInterface "i", strayCopy]).2 [.addInterface "i"] strayCopy [] rfl c reached _ true [] "b"
    read ran (Prod.ext step rfl)
  exact ⟨c, reached, read, kept, Prod.ext step same, passed⟩

end Group

end ClassWeave
