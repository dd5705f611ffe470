import Mathlib.Data.List.Forall2
import Mathlib.Tactic.Common
import ClassWeave.Proofs.Pool
import ClassWeave.Proofs.Text.Canonical
import ClassWeave.Proofs.Words

/-!
# The bytes a pool was read from

A pool that was read comes from a count and the stored forms of its constants, one behind the other.
All constants but texts are written in the form that they were read from. A text is if its bytes are
canonical; the others are accepted too, and written shorter, or longer where a byte is zero. So the
pool is written in its own bytes exactly when all of its texts are canonical.
-/

set_option autoImplicit false

namespace ClassWeave

theorem Bytes.be_ofBE (bytes : Bytes) : be bytes.length (ofBE bytes) = bytes := by
  induction bytes using List.reverseRecOn with
  | nil => rfl
  | append_singleton bytes b ih =>
    have small := b.toNat_lt
    have low : UInt8.ofNat (ofBE bytes * 256 + b.toNat) = b := by
      rw [← UInt8.toNat_inj, UInt8.toNat_ofNat']
      omega
    have high : (ofBE bytes * 256 + b.toNat) / 256 = ofBE bytes := by omega
    rw [List.length_append, List.length_singleton, ofBE_append_singleton, be, low, high, ih]

def Consumes {α : Type} (r : Reader α) (P : Bytes → α → Prop) : Prop :=
  ∀ o bytes a c, r ⟨o, bytes⟩ = .ok (a, c) → ∃ used, bytes = used ++ c.rest ∧ P used a

namespace Consumes

variable {α β : Type}

theorem pure {a : α} {P : Bytes → α → Prop} (h : P [] a) : Consumes (Pure.pure a : Reader α) P := by
  intro o bytes b c run
  cases run
  exact ⟨[], rfl, h⟩

theorem mono {r : Reader α} {P Q : Bytes → α → Prop} (h : Consumes r P)
    (sub : ∀ used a, P used a → Q used a) : Consumes r Q := by
  intro o bytes a c run
  obtain ⟨used, same, ha⟩ := h o bytes a c run
  exact ⟨used, same, sub used a ha⟩

theorem bind {r : Reader α} {k : α → Reader β} {P : Bytes → α → Prop} {Q : Bytes → β → Prop}
    (hr : Consumes r P) (hk : ∀ bs a, P bs a → Consumes (k a) fun cs b => Q (bs ++ cs) b) :
    Consumes (r >>= k) Q := by
  intro o bytes b c run
  obtain ⟨⟨a, d⟩, first, second⟩ := bind_ok_iff.1 run
  obtain ⟨bs, rfl, ha⟩ := hr _ _ _ _ first
  obtain ⟨cs, rest, hb⟩ := hk bs a ha _ _ _ _ second
  exact ⟨bs ++ cs, by rw [rest, List.append_assoc], hb⟩

theorem bind_last {r : Reader α} {f : α → β} {P : Bytes → α → Prop} {Q : Bytes → β → Prop}
    (hr : Consumes r P) (hf : ∀ bs a, P bs a → Q bs (f a)) :
    Consumes (r >>= fun a => Pure.pure (f a)) Q :=
  bind hr fun bs a ha => pure (by rw [List.append_nil]; exact hf bs a ha)

theorem throw {e : FormatError} {P : Bytes → α → Prop} :
    Consumes (MonadExcept.throw e : Reader α) P := by
  intro o bytes a c run
  cases run

theorem take (n : Nat) : Consumes (Reader.take n) fun used a => used = a ∧ a.length = n := by
  intro o bytes taken c run
  simp only [Reader.take] at run
  split at run
  · rename_i whole
    cases run
    exact ⟨bytes.take n, (List.take_append_drop n bytes).symm, rfl, whole⟩
  · cases run

theorem u8 : Consumes Reader.u8 fun used b => used = [b] := by
  intro o bytes b c run
  cases bytes with
  | nil => cases run
  | cons b rest =>
    cases run
    exact ⟨[b], rfl, rfl⟩

theorem word (width : Nat) :
    Consumes (Reader.word width) fun used n => used = Bytes.be width n := by
  refine bind_last (take width) fun bs a ha => ?_
  obtain ⟨rfl, rfl⟩ := ha
  exact (Bytes.be_ofBE bs).symm

theorem number (width : Nat) {make : Nat → α} {value : α → Nat}
    (h : ∀ n, value (make n) = n % Nat.pow 256 width) :
    Consumes (do return make (← Reader.word width)) fun used a =>
      used = Bytes.be width (value a) :=
  bind_last (word width) fun bs n hn => by rw [h, Bytes.be_mod, hn]

theorem u16 : Consumes Reader.u16 fun used n => used = Bytes.be 2 n.toNat :=
  number 2 fun _ => UInt16.toNat_ofNat'

theorem u32 : Consumes Reader.u32 fun used n => used = Bytes.be 4 n.toNat :=
  number 4 fun _ => UInt32.toNat_ofNat'

theorem u64 : Consumes Reader.u64 fun used n => used = Bytes.be 8 n.toNat :=
  number 8 fun _ => UInt64.toNat_ofNat'

theorem i32 : Consumes Reader.i32 fun used v => used = Bytes.be 4 (Bytes.ofInt32 v) :=
  bind_last u32 fun _ _ h => h

theorem i64 : Consumes Reader.i64 fun used v => used = Bytes.be 8 (Bytes.ofInt64 v) :=
  bind_last u64 fun _ _ h => h

end Consumes

namespace Constant

def textForm (bytes : Bytes) : Bytes := 1 :: (Bytes.be 2 bytes.length ++ bytes)

/-- The constant is read from the form. A text may be in bytes other than its own. -/
inductive ReadAs : Bytes → Constant → Prop where
  | text {bytes : Bytes} {text : String} (short : bytes.length < 65536)
      (accepted : ModifiedUtf8.decode? bytes = some text) : ReadAs (textForm bytes) (.utf8 text)
  | other {form : Bytes} {c : Constant} (plain : ∀ text, c ≠ .utf8 text) (same : form = c.encode) :
      ReadAs form c

theorem consumes_readPair (make : UInt16 → UInt16 → Constant) {first : Bytes}
    (form : ∀ i j, ReadAs (first ++ (Bytes.be 2 i.toNat ++ Bytes.be 2 j.toNat)) (make i j)) :
    Consumes (readPair make) fun used c => ReadAs (first ++ used) c :=
  .bind .u16 fun _ i hi => .bind_last .u16 fun _ j hj => by rw [hi, hj]; exact form i j

theorem consumes_read (index : UInt16) : Consumes (read index) ReadAs := by
  refine .bind .u8 fun _ tag same => ?_
  subst same
  split
  case h_1 =>
    refine .bind .u16 fun _ length same => .bind (.take _) fun _ bytes taken => ?_
    obtain ⟨rfl, whole⟩ := taken
    subst same
    rw [← whole]
    split
    · rename_i text accepted
      refine .pure ?_
      rw [List.append_nil]
      exact .text (whole ▸ length.toNat_lt) accepted
    · exact .throw
  case h_2 => exact .bind_last .i32 fun _ v hv => .other (by simp) (by rw [hv]; rfl)
  case h_3 => exact .bind_last .u32 fun _ v hv => .other (by simp) (by rw [hv]; rfl)
  case h_4 => exact .bind_last .i64 fun _ v hv => .other (by simp) (by rw [hv]; rfl)
  case h_5 => exact .bind_last .u64 fun _ v hv => .other (by simp) (by rw [hv]; rfl)
  case h_6 | h_7 | h_13 | h_16 | h_17 =>
    exact .bind_last .u16 fun _ i hi => .other (by simp) (by rw [hi]; rfl)
  case h_8 | h_9 | h_10 | h_11 | h_14 | h_15 =>
    exact consumes_readPair _ fun i j => .other (by simp) rfl
  case h_12 =>
    refine .bind .u8 fun _ kind same => .bind_last .u16 fun _ i hi => ?_
    exact .other (by simp) (by rw [same, hi]; rfl)
  case h_18 => exact .throw

theorem encode_utf8 (text : String) :
    (Constant.utf8 text).encode = textForm (ModifiedUtf8.encode text) := rfl

theorem textForm_injective {bytes bytes' : Bytes} (same : textForm bytes = textForm bytes') :
    bytes = bytes' :=
  (List.append_inj (List.cons.inj same).2 (by simp)).2

theorem textForm_append_inj {bytes bytes' rest rest' : Bytes}
    (close : bytes.length ≤ 2 * bytes'.length) (short : bytes'.length < 65536)
    (same : textForm bytes ++ rest = textForm bytes' ++ rest') :
    bytes = bytes' ∧ rest = rest' := by
  have behind : Bytes.be 2 bytes.length ++ (bytes ++ rest) =
      Bytes.be 2 bytes'.length ++ (bytes' ++ rest') := by
    simpa only [textForm, List.cons_append, List.append_assoc, List.cons.injEq, true_and] using same
  obtain ⟨count, behind⟩ := List.append_inj behind (by simp)
  have low : bytes.length % 65536 = bytes'.length % 65536 := by
    have digits := congrArg Bytes.ofBE count
    rwa [Bytes.ofBE_be, Bytes.ofBE_be] at digits
  exact List.append_inj behind (by omega)

theorem encode_ne_textForm {c : Constant} (plain : ∀ text, c ≠ .utf8 text) (bytes : Bytes) :
    c.encode ≠ textForm bytes := by
  intro same
  have tag : UInt8.ofNat c.tag = 1 := (List.cons.inj same).1
  cases c with
  | utf8 text => exact plain text rfl
  | _ => cases tag

/-- Behind a form and behind the bytes that its constant is written in, the same bytes only follow
if the two are the same. -/
theorem ReadAs.append_inj {form rest rest' : Bytes} {c : Constant} (h : ReadAs form c)
    (same : c.encode ++ rest = form ++ rest') : c.encode = form ∧ rest = rest' := by
  cases h with
  | other plain form =>
    subst form
    exact ⟨rfl, List.append_cancel_left same⟩
  | text short accepted =>
    rw [encode_utf8] at same ⊢
    obtain ⟨written, behind⟩ :=
      textForm_append_inj (ModifiedUtf8.length_encode_le accepted) short same
    exact ⟨congrArg textForm written, behind⟩

theorem ReadAs.encode_eq_iff {form : Bytes} {c : Constant} (h : ReadAs form c) :
    c.encode = form ↔ ∀ bytes, form = textForm bytes → ModifiedUtf8.Canonical bytes := by
  cases h with
  | other plain same =>
    refine iff_of_true same.symm fun bytes form => ?_
    exact absurd (same.symm.trans form) (encode_ne_textForm plain bytes)
  | @text bytes text short accepted =>
    have own : (Constant.utf8 text).encode = textForm bytes ↔ ModifiedUtf8.encode text = bytes :=
      ⟨textForm_injective, congrArg textForm⟩
    rw [own, ModifiedUtf8.encode_eq_iff accepted]
    constructor
    · intro canonical bytes' form
      rwa [← textForm_injective form]
    · exact fun canonical => canonical bytes rfl

end Constant

namespace Pool

/-- The pool holds the constants that were read from the forms, one behind the other. -/
def ReadFrom (p : Pool) (forms : List Bytes) : Prop :=
  ∃ cs : List Constant, p.toList = none :: cs.flatMap Constant.cells ∧
    List.Forall₂ Constant.ReadAs forms cs

theorem consumes_readEntries (count fuel : Nat) (p : Pool) :
    Consumes (readEntries count fuel p) fun used q => ∃ forms cs, used = forms.flatten ∧
      q.toList = p.toList ++ cs.flatMap Constant.cells ∧
      List.Forall₂ Constant.ReadAs forms cs := by
  induction fuel generalizing p with
  | zero => exact .pure ⟨[], [], rfl, (List.append_nil _).symm, .nil⟩
  | succ fuel ih =>
    rw [readEntries]
    split
    · refine .bind (Constant.consumes_read _) fun form c hc => ?_
      refine (ih (p.append c)).mono fun used q more => ?_
      obtain ⟨forms, cs, rfl, slots, read⟩ := more
      refine ⟨form :: forms, c :: cs, rfl, ?_, .cons hc read⟩
      rw [slots, toList_append, List.flatMap_cons, List.append_assoc]
    · exact .pure ⟨[], [], rfl, (List.append_nil _).symm, .nil⟩

theorem consumes_read : Consumes read fun used p =>
    ∃ forms, used = Bytes.be 2 p.size ++ forms.flatten ∧ p.ReadFrom forms := by
  refine .bind .u16 fun _ count same => ?_
  subst same
  refine .bind (consumes_readEntries _ _ _) fun _ p entries => ?_
  obtain ⟨forms, cs, rfl, slots, read⟩ := entries
  split
  · exact .bind (P := fun _ _ => False) .throw fun _ _ h => h.elim
  · rename_i whole
    refine .pure ⟨forms, ?_, cs, slots, read⟩
    rw [List.append_nil, not_not.1 whole]

theorem flatMap_encode_eq_iff {forms : List Bytes} {cs : List Constant}
    (h : List.Forall₂ Constant.ReadAs forms cs) :
    cs.flatMap Constant.encode = forms.flatten ↔
      ∀ bytes, Constant.textForm bytes ∈ forms → ModifiedUtf8.Canonical bytes := by
  induction h with
  | nil => simp
  | @cons form c forms cs first _ ih =>
    have parts : (c :: cs).flatMap Constant.encode = (form :: forms).flatten ↔
        c.encode = form ∧ cs.flatMap Constant.encode = forms.flatten := by
      rw [List.flatMap_cons, List.flatten_cons]
      constructor
      · exact first.append_inj
      · rintro ⟨here, later⟩
        rw [here, later]
    rw [parts, first.encode_eq_iff, ih]
    simp only [List.mem_cons, eq_comm (b := form), or_imp, forall_and]

theorem encode_eq_of_readFrom {p : Pool} {forms : List Bytes} (h : p.ReadFrom forms) :
    p.encode = Bytes.be 2 p.size ++ forms.flatten ↔
      ∀ bytes, Constant.textForm bytes ∈ forms → ModifiedUtf8.Canonical bytes := by
  obtain ⟨cs, slots, read⟩ := h
  rw [encode_eq slots, List.append_right_inj, flatMap_encode_eq_iff read]

/-- What is read from `bytes` is written again as it was, and from no other bytes, as far as the
bytes of the texts are canonical: a text, a constant of a pool, and all of the pool. Bytes that are
not canonical are accepted as well, and another form is written for them. -/
theorem restored_iff_canonical (bytes : Bytes) :
    (∀ text, ModifiedUtf8.decode? bytes = some text →
      (ModifiedUtf8.encode text = bytes ↔ ModifiedUtf8.Canonical bytes) ∧
      ∀ other, ModifiedUtf8.decode? other = some text → ModifiedUtf8.Canonical bytes →
        ModifiedUtf8.Canonical other → other = bytes) ∧
    (∀ c, Constant.ReadAs bytes c →
      (c.encode = bytes ↔
        ∀ text, bytes = Constant.textForm text → ModifiedUtf8.Canonical text)) ∧
    ∀ o p c, read ⟨o, bytes⟩ = .ok (p, c) → ∃ forms,
      p.ReadFrom forms ∧ bytes = Bytes.be 2 p.size ++ forms.flatten ++ c.rest ∧
      (p.encode ++ c.rest = bytes ↔
        ∀ text, Constant.textForm text ∈ forms → ModifiedUtf8.Canonical text) := by
  refine ⟨fun text accepted => ⟨ModifiedUtf8.encode_eq_iff accepted, ?_⟩,
    fun c read => read.encode_eq_iff, fun o p c run => ?_⟩
  · intro other accepted' canonical canonical'
    exact ModifiedUtf8.canonical_injective accepted' accepted canonical' canonical
  · obtain ⟨_, rfl, forms, rfl, readFrom⟩ := consumes_read o bytes p c run
    refine ⟨forms, readFrom, rfl, ?_⟩
    rw [List.append_left_inj, encode_eq_of_readFrom readFrom]

/-- A letter in its own byte, the same letter in two bytes, and zero as a byte. -/
def looseTexts : Bytes := [0, 4, 1, 0, 1, 0x41, 1, 0, 2, 0xC1, 0x81, 1, 0, 1, 0]

/-- Zero is restored from two bytes, and the letter from one. The pool of loose texts is accepted
and written in other bytes, so that some text in it is not canonical. -/
theorem restored_looseTexts :
    (ModifiedUtf8.decode? [0xC0, 0x80] = some "\x00" ∧
      ModifiedUtf8.encode "\x00" = [0xC0, 0x80]) ∧
    (Constant.ReadAs (Constant.textForm [0x41]) (.utf8 "A") ∧
      (Constant.utf8 "A").encode = Constant.textForm [0x41]) ∧
    ∃ p c forms, read ⟨0, looseTexts⟩ = .ok (p, c) ∧ p.ReadFrom forms ∧
      ∃ text, Constant.textForm text ∈ forms ∧ ¬ ModifiedUtf8.Canonical text := by
  have zero : ModifiedUtf8.decode? [0xC0, 0x80] = some "\x00" := by decide +kernel
  have letter : ModifiedUtf8.decode? [0x41] = some "A" := by decide +kernel
  have form : Constant.ReadAs (Constant.textForm [0x41]) (.utf8 "A") := .text (by decide) letter
  have computed : ((read ⟨0, looseTexts⟩).toOption.any fun r =>
      r.1.encode ++ r.2.rest ≠ looseTexts) = true := by
    decide +kernel
  obtain ⟨⟨p, c⟩, run, other⟩ := exists_ok_of_any computed
  have other := of_decide_eq_true other
  obtain ⟨forms, readFrom, _, restored⟩ := (restored_iff_canonical looseTexts).2.2 0 p c run
  refine ⟨⟨zero, (((restored_iff_canonical _).1 _ zero).1).2 (by decide)⟩,
    ⟨form, ((restored_iff_canonical _).2.1 _ form).2 ?_⟩, p, c, forms, run, readFrom, ?_⟩
  · intro bytes same
    rw [← Constant.textForm_injective same]
    decide
  · simpa only [not_forall, exists_prop] using mt restored.2 other

/-- Zero in one byte and a letter in two or three are accepted, and none of them is restored. -/
theorem decode?_looseTexts :
    (ModifiedUtf8.decode? [0] = some "\x00" ∧ ModifiedUtf8.encode "\x00" ≠ [0]) ∧
    (ModifiedUtf8.decode? [0xC1, 0x81] = some "A" ∧ ModifiedUtf8.encode "A" ≠ [0xC1, 0x81]) ∧
    ModifiedUtf8.decode? [0xE0, 0x81, 0x81] = some "A" ∧
      ModifiedUtf8.encode "A" ≠ [0xE0, 0x81, 0x81] := by
  decide +kernel

end Pool

end ClassWeave
