import Mathlib.Data.List.Forall2
import Mathlib.Tactic.Common
import ClassWeave.ClassFile.Decode
import ClassWeave.ClassFile.Encode
import ClassWeave.Proofs.Bootstraps

/-!
# Attributes read back

An attribute is its name and its bytes. A list of them reads back when the list fits its count and
every body its length.
-/

set_option autoImplicit false

namespace ClassWeave

def Attribute.Fits (a : Attribute) : Prop := a.data.length < 4294967296

namespace Tables

def KeepsBootstraps {α : Type} (m : Growth α) : Prop := ∀ s, (m s).2.bootstraps = s.bootstraps

theorem keepsBootstraps_utf8 (text : String) : KeepsBootstraps (utf8 text) := fun _ => rfl

namespace KeepsBootstraps

variable {α β : Type}

theorem pure (a : α) : KeepsBootstraps (Pure.pure a : Growth α) := fun _ => rfl

theorem bind {m : Growth α} {k : α → Growth β} (hm : KeepsBootstraps m)
    (hk : ∀ a, KeepsBootstraps (k a)) : KeepsBootstraps (m >>= k) := by
  intro s
  change (ExceptT.bindCont k (m s).1 (m s).2).2.bootstraps = _
  have first := hm s
  rcases run : m s with ⟨e | a, t⟩
  · rw [run] at first
    exact first
  · rw [run] at first
    exact (hk a t).trans first

theorem mapM {k : α → Growth β} (hk : ∀ a, KeepsBootstraps (k a)) (as : List α) :
    KeepsBootstraps (as.mapM k) := by
  induction as with
  | nil =>
    rw [List.mapM_nil]
    exact pure []
  | cons a as ih =>
    rw [List.mapM_cons]
    exact bind (hk a) fun b => bind ih fun bs => pure _

end KeepsBootstraps

end Tables

namespace ClassFile

variable {limits : Limits}

theorem keepsBootstraps_encodeAttributes (attributes : List Attribute) :
    Tables.KeepsBootstraps (encodeAttributes attributes) := by
  have each : ∀ a, Tables.KeepsBootstraps (encodeAttribute a) := by
    intro a
    unfold encodeAttribute
    exact .bind (Tables.keepsBootstraps_utf8 a.name) fun i => .pure _
  unfold encodeAttributes
  exact .bind (.mapM each attributes) fun written => .pure _

theorem bootstraps_encodeAttributes {attributes : List Attribute} {s u : Tables}
    {r : Except WriteError Bytes} (run : encodeAttributes attributes s = (r, u)) :
    u.bootstraps = s.bootstraps := by
  have keeps := keepsBootstraps_encodeAttributes attributes s
  rwa [run] at keeps

def AttributesRead (p : Pool) (chunks : List Bytes) (attributes : List Attribute) : Prop :=
  List.Forall₂ (fun bs a => a.data.length ≤ bs.length ∧
    (a.Fits → ∀ o, ReadsAt o (readAttribute p) bs a)) chunks attributes

theorem grows_encodeAttribute {a : Attribute} (within : limits.text a.name) :
    Grows limits (encodeAttribute a) fun f bytes => a.data.length ≤ bytes.length ∧
      (a.Fits → ∀ o, ReadsAt o (readAttribute f.pool) bytes a) := by
  refine .bind (Tables.grows_utf8 within) fun i _ => .pure fun f hi => ⟨?_, fun fits o => ?_⟩
  · rw [List.length_append]
    exact Nat.le_add_left ..
  rw [List.append_assoc]
  refine .bind (.u16_toNat i)
    (.bind_nil (.lift hi.2) (.bind (.u32 _ fits) (.bind_last (a := a.data) ?_ (.pure a))))
  rw [UInt32.toNat_ofNat_of_lt' fits]
  exact .take a.data

theorem grows_encodeAttributes {attributes : List Attribute}
    (within : ∀ a ∈ attributes, limits.text a.name) :
    Grows limits (encodeAttributes attributes) fun f bytes =>
      ∃ chunks, bytes = Bytes.be 2 attributes.length ++ chunks.flatten ∧
        AttributesRead f.pool chunks attributes := by
  refine .bind (.mapM fun a ha => grows_encodeAttribute (within a ha)) fun written _ => ?_
  exact .pure fun f hw => ⟨written, rfl, hw.flip⟩

theorem AttributesRead.length_le {p : Pool} {chunks : List Bytes} {attributes : List Attribute}
    (h : AttributesRead p chunks attributes) {a : Attribute} (ha : a ∈ attributes) :
    a.data.length ≤ chunks.flatten.length := by
  obtain ⟨chunk, hchunk, le, _⟩ := exists_left_of_forall₂ h ha
  exact Nat.le_trans le (List.sublist_flatten_of_mem hchunk).length_le

theorem AttributesRead.readsAt {p : Pool} {chunks : List Bytes} {attributes : List Attribute}
    (h : AttributesRead p chunks attributes) (count : attributes.length < 65536)
    (fits : ∀ a ∈ attributes, a.Fits) (o : Nat) :
    ReadsAt o (readAttributes p) (Bytes.be 2 attributes.length ++ chunks.flatten) attributes := by
  have each := forall₂_imp_mem h.flip fun a ha bs _ hbs => hbs.2 (fits a ha)
  exact .counted each.flip count

theorem yields_readAttribute {p : Pool} (hp : p.WellFormed limits) :
    Yields (readAttribute p) fun a => limits.text a.name ∧ a.Fits := by
  refine .bind (.trivial _) fun i _ => ?_
  refine .bind (.lift fun name h => Pool.text_of_utf8 hp h) fun name hn => ?_
  refine .bind (.trivial _) fun length _ => ?_
  refine .bind (.take length.toNat) fun data hd => .pure ⟨hn, ?_⟩
  have := length.toNat_lt
  show data.length < 4294967296
  omega

theorem yields_readAttributes {p : Pool} (hp : p.WellFormed limits) :
    Yields (readAttributes p) fun as =>
      as.length < 65536 ∧ ∀ a ∈ as, limits.text a.name ∧ a.Fits :=
  .counted (yields_readAttribute hp)

end ClassFile

end ClassWeave
