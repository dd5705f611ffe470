import Mathlib.Data.List.TakeWhile
import Mathlib.Tactic.Common
import ClassWeave.Renaming

/-!
# Renaming descriptors
-/

set_option autoImplicit false

namespace ClassWeave.Renaming

theorem ne_of_closed {name : List Char} (closed : ';' ∉ name) :
    ∀ c ∈ name, decide (c ≠ ';') = true := by
  intro c mem
  rw [decide_eq_true_iff]
  rintro rfl
  exact closed mem

theorem takeWhile_closed {name : List Char} (closed : ';' ∉ name) (rest : List Char) :
    (name ++ ';' :: rest).takeWhile (· ≠ ';') = name := by
  rw [List.takeWhile_append_of_pos (ne_of_closed closed)]
  simp

theorem dropWhile_closed {name : List Char} (closed : ';' ∉ name) (rest : List Char) :
    (name ++ ';' :: rest).dropWhile (· ≠ ';') = ';' :: rest := by
  rw [List.dropWhile_append_of_pos (ne_of_closed closed)]
  simp

theorem dropWhile_open {tail : List Char} (unclosed : ';' ∉ tail) :
    tail.dropWhile (· ≠ ';') = [] :=
  List.dropWhile_eq_nil_iff.2 (ne_of_closed unclosed)

variable (r : Renaming)

def innerName (name : List Char) : List Char :=
  if name.head? = some '[' then r.descChars name else r.plainName name

def markedChars : List Char → List Char
  | [] => []
  | mark :: tail =>
    match tail.dropWhile (· ≠ ';') with
    | [] => mark :: tail
    | semicolon :: rest =>
      mark :: r.innerName (tail.takeWhile (· ≠ ';')) ++ semicolon :: r.descChars rest

theorem descChars_eq (cs : List Char) :
    r.descChars cs = cs.takeWhile (· ≠ 'L') ++ r.markedChars (cs.dropWhile (· ≠ 'L')) := by
  rw [descChars]
  split
  · rename_i found
    rw [found]
    exact (List.append_nil _).symm
  · rename_i mark tail found
    rw [found, markedChars]
    split
    · rename_i closed
      rw [closed]
    · rename_i semicolon rest closed
      rw [closed, List.append_assoc]
      rfl

theorem descChars_nil : r.descChars [] = [] := descChars_eq r []

theorem descChars_cons {c : Char} (plain : c ≠ 'L') (cs : List Char) :
    r.descChars (c :: cs) = c :: r.descChars cs := by
  rw [descChars_eq, descChars_eq r cs, List.takeWhile_cons_of_pos (by simpa using plain),
    List.dropWhile_cons_of_pos (by simpa using plain), List.cons_append]

theorem descChars_marked {name : List Char} (closed : ';' ∉ name) (rest : List Char) :
    r.descChars ('L' :: name ++ ';' :: rest) =
      'L' :: r.innerName name ++ ';' :: r.descChars rest := by
  rw [List.cons_append, descChars_eq, List.takeWhile_cons_of_neg (by simp),
    List.dropWhile_cons_of_neg (by simp), List.nil_append, markedChars,
    dropWhile_closed closed, takeWhile_closed closed]

theorem descChars_open {tail : List Char} (closed : ';' ∉ tail) :
    r.descChars ('L' :: tail) = 'L' :: tail := by
  rw [descChars_eq, List.takeWhile_cons_of_neg (by simp), List.dropWhile_cons_of_neg (by simp),
    List.nil_append, markedChars, dropWhile_open closed]

/-- Descriptor text is empty, or starts with a character outside class names, with a class name up
to its semicolon, or with a mark that no semicolon follows. -/
theorem text_induction {P : List Char → Prop} (nil : P [])
    (plain : ∀ c cs, c ≠ 'L' → P cs → P (c :: cs))
    (marked : ∀ name rest, ';' ∉ name → P rest → P ('L' :: name ++ ';' :: rest))
    (unclosed : ∀ tail, ';' ∉ tail → P ('L' :: tail)) (cs : List Char) : P cs := by
  induction length : cs.length using Nat.strongRecOn generalizing cs with
  | ind n ih =>
    cases cs with
    | nil => exact nil
    | cons c tail =>
      rw [List.length_cons] at length
      by_cases mark : c = 'L'
      · subst mark
        by_cases closed : ';' ∈ tail
        · obtain ⟨name, rest, split, fresh⟩ := List.eq_append_cons_of_mem closed
          have shorter : rest.length < n := by
            rw [← length, split, List.length_append, List.length_cons]
            omega
          rw [split]
          exact marked name rest fresh (ih _ shorter rest rfl)
        · exact unclosed tail closed
      · exact plain c tail mark (ih tail.length (by omega) tail rfl)

theorem descChars_of_unclosed {cs : List Char} (unclosed : ';' ∉ cs) : r.descChars cs = cs := by
  induction cs with
  | nil => exact descChars_nil r
  | cons c cs ih =>
    have tail : ';' ∉ cs := fun mem => unclosed (List.mem_cons_of_mem c mem)
    by_cases mark : c = 'L'
    · rw [mark, descChars_open r tail]
    · rw [descChars_cons r mark, ih tail]

theorem descChars_of_fixed (fixed : ∀ name, ';' ∉ name → r.innerName name = name)
    (cs : List Char) : r.descChars cs = cs := by
  induction cs using text_induction with
  | nil => exact descChars_nil r
  | plain c cs other ih => rw [descChars_cons r other, ih]
  | marked name rest closed ih => rw [descChars_marked r closed, fixed name closed, ih]
  | unclosed tail unclosed => exact descChars_open r unclosed

theorem descChars_of_unmarked {cs : List Char} (unmarked : 'L' ∉ cs) : r.descChars cs = cs := by
  induction cs with
  | nil => exact descChars_nil r
  | cons c cs ih =>
    have plain : c ≠ 'L' := fun same => unmarked (same ▸ List.mem_cons_self)
    rw [descChars_cons r plain, ih fun mem => unmarked (List.mem_cons_of_mem c mem)]

theorem desc_of_unmarked {text : String} (unmarked : 'L' ∉ text.toList) :
    r.desc text = text := by
  rw [desc, descChars_of_unmarked r unmarked, String.ofList_toList]

/-! Descriptors and class names are up to the classes of a renaming alone. -/

variable {r} {r' : Renaming}

theorem descChars_congr (same : r.classes = r'.classes) (cs : List Char) :
    r.descChars cs = r'.descChars cs := by
  fun_induction Renaming.descChars r cs with
  | case1 cs head ended => rw [descChars_eq r', ended, markedChars, List.append_nil]
  | case2 cs head mark tail found ended => rw [descChars_eq r', found, markedChars, ended]
  | case3 cs head mark tail found name semicolon rest closed target inName inRest =>
    have inner : target = r'.innerName name := by
      unfold target innerName
      split
      · exact inName
      · rw [plainName, plainName, same]
    rw [descChars_eq r' cs, found, markedChars, closed, inner, inRest, List.append_assoc]

theorem desc_congr (same : r.classes = r'.classes) (text : String) :
    r.desc text = r'.desc text := by
  rw [desc, desc, descChars_congr same]

theorem className_congr (same : r.classes = r'.classes) (name : String) :
    r.className name = r'.className name := by
  rw [className, className, desc_congr same, plainName, plainName, same]

end ClassWeave.Renaming
