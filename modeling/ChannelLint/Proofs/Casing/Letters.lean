import ChannelLint.Script.Lexer
import ChannelLint.Text.Case
import Mathlib

/-!
# Letters without their case

`uncase` gives a letter without its case, one character for one. Only the capitals from A to Z and
the Kelvin sign change: the full lower case of a text also lengthens U+0130 and looks at the letters
around a sigma, and both of these stay as they are here. Three facts make `uncase` useful:

* the lower case of a text does not change when the text loses its case (`lower_uncased`);
* no class of characters that the lexer asks for tells a letter from its uncased form;
* two names with the same lower case differ in case alone (`uncased_eq_of_lower_eq`).
-/
namespace ChannelLint.Text

open List

variable {c : Char} {s t : String}

def uncase (c : Char) : Char :=
  if c = '\u212a' then 'k' else c.toLower

/-- A text without its case. -/
def uncased (s : String) : String :=
  String.ofList (s.toList.map uncase)

/-- The characters that `uncase` changes. -/
def capitals : List Char :=
  '\u212a' :: "ABCDEFGHIJKLMNOPQRSTUVWXYZ".toList

/-! ## One letter -/

theorem mem_capitals_of_between (h : 'A'.val ≤ c.val ∧ c.val ≤ 'Z'.val) : c ∈ capitals := by
  have low : 65 ≤ c.toNat := UInt32.le_iff_toNat_le.1 h.1
  have high : c.toNat ≤ 90 := UInt32.le_iff_toNat_le.1 h.2
  rw [← Char.ofNat_toNat c]
  generalize c.toNat = n at low high
  interval_cases n <;> decide

theorem uncase_of_not_mem (h : c ∉ capitals) : uncase c = c := by
  have notKelvin : c ≠ '\u212a' := fun e => h (e ▸ by decide)
  have notUpper : ¬ (c.val ≥ 'A'.val ∧ c.val ≤ 'Z'.val) := fun between =>
    h (mem_capitals_of_between between)
  simp only [uncase, if_neg notKelvin, Char.toLower, dif_neg notUpper]

/-- What holds of the few letters that change holds of every letter. -/
theorem uncase_congr {α : Type} (f : Char → α)
    (h : capitals.map (fun c => f (uncase c)) = capitals.map f) (c : Char) :
    f (uncase c) = f c := by
  by_cases mem : c ∈ capitals
  · exact map_inj_left.1 h c mem
  · rw [uncase_of_not_mem mem]

@[simp] theorem uncase_uncase (c : Char) : uncase (uncase c) = uncase c :=
  uncase_congr uncase (by decide) c

/-- Small letters without their case are what they were. -/
theorem uncase_toLower (c : Char) : uncase c.toLower = uncase c := by
  by_cases mem : c ∈ capitals
  · have small : capitals.map (fun c => uncase c.toLower) = capitals.map uncase := by decide
    exact map_inj_left.1 small c mem
  · have notKelvin : c ≠ '\u212a' := fun e => mem (e ▸ by decide)
    have same := uncase_of_not_mem mem
    rw [uncase, if_neg notKelvin] at same
    rw [same]

/-- A character that no letter loses its case to. -/
def isSign (t : Char) : Bool :=
  !(capitals.contains t || (capitals.map uncase).contains t)

theorem uncase_eq_iff {t : Char} (sign : isSign t) (c : Char) : uncase c = t ↔ c = t := by
  simp only [isSign, Bool.not_eq_true', Bool.or_eq_false_iff, contains_eq_mem,
    decide_eq_false_iff_not] at sign
  by_cases mem : c ∈ capitals
  · have lost : uncase c ≠ t := fun e => sign.2 (e ▸ mem_map_of_mem mem)
    have other : c ≠ t := fun e => sign.1 (e ▸ mem)
    exact iff_of_false lost other
  · rw [uncase_of_not_mem mem]

theorem uncase_beq {t : Char} (sign : isSign t) (c : Char) : (uncase c == t) = (c == t) := by
  rw [Bool.eq_iff_iff, beq_iff_eq, beq_iff_eq]
  exact uncase_eq_iff sign c

/-! ## Texts -/

@[simp] theorem toList_uncased (s : String) : (uncased s).toList = s.toList.map uncase :=
  String.toList_ofList

@[simp] theorem length_uncased (s : String) : (uncased s).length = s.length := by
  rw [uncased, String.length_ofList, length_map, String.length_toList]

@[simp] theorem uncased_uncased (s : String) : uncased (uncased s) = uncased s := by
  apply String.toList_inj.1
  simp only [toList_uncased, map_map]
  exact map_congr_left fun c _ => uncase_uncase c

@[simp] theorem uncased_append (s t : String) : uncased (s ++ t) = uncased s ++ uncased t := by
  apply String.toList_inj.1
  simp only [toList_uncased, String.toList_append, map_append]

theorem uncased_eq_of_small (h : s.toList.map Char.toLower = t.toList.map Char.toLower) :
    uncased s = uncased t := by
  have through (u : String) : u.toList.map uncase = (u.toList.map Char.toLower).map uncase := by
    rw [map_map]
    exact map_congr_left fun c _ => (uncase_toLower c).symm
  rw [uncased, uncased, through s, through t, h]

/-- A text of signs alone is the uncased form of itself only. -/
theorem uncased_eq_iff {t : String} (signs : t.toList.all isSign) (s : String) :
    uncased s = t ↔ s = t := by
  rw [← String.toList_inj, ← String.toList_inj, toList_uncased]
  generalize s.toList = cs
  generalize t.toList = ts at signs
  induction ts generalizing cs with
  | nil => simp
  | cons c ts ih =>
    rw [all_cons, Bool.and_eq_true] at signs
    cases cs with
    | nil => simp
    | cons d cs =>
      rw [map_cons, List.cons.injEq, List.cons.injEq, uncase_eq_iff signs.1, ih _ signs.2]

/-! ## Lower case -/

theorem lowerChar_of_ascii (h : c.toNat < 128) : lowerChar c = c.toLower := by
  rw [lowerChar, if_pos h]

/-- Lower case without the shortcut for plain texts. -/
theorem lower_eq (s : String) : lower s = String.ofList (lowerFrom [] s.toList) := by
  have plain (before cs : List Char) (h : ∀ c ∈ cs, c.toNat < 128) :
      lowerFrom before cs = cs.map Char.toLower := by
    induction cs generalizing before with
    | nil => rfl
    | cons c cs ih =>
      have small := h c mem_cons_self
      have notSigma : (c == 'Σ') = false := by
        rw [beq_eq_false_iff_ne]; rintro rfl; revert small; decide
      have notDotted : (c == 'İ') = false := by
        rw [beq_eq_false_iff_ne]; rintro rfl; revert small; decide
      rw [lowerFrom, notSigma, notDotted, ih _ fun d hd => h d (mem_cons_of_mem _ hd),
        lowerChar_of_ascii small]
      rfl
  rw [lower]
  split
  · next ascii =>
    rw [plain [] s.toList fun c hc => by simpa using all_eq_true.1 ascii c hc]
  · rfl

theorem meetsCased_map_uncase (cs : List Char) : meetsCased (cs.map uncase) = meetsCased cs := by
  have skipped : caseIgnorableClass.contains ∘ uncase = caseIgnorableClass.contains :=
    funext (uncase_congr _ (by decide +kernel))
  have cased := uncase_congr casedClass.contains (by decide +kernel)
  rw [meetsCased, meetsCased, dropWhile_map, skipped]
  cases cs.dropWhile caseIgnorableClass.contains with
  | nil => rfl
  | cons c cs => exact cased c

theorem lowerFrom_map_uncase (before cs : List Char) :
    lowerFrom (before.map uncase) (cs.map uncase) = lowerFrom before cs := by
  induction cs generalizing before with
  | nil => rfl
  | cons c cs ih =>
    rw [map_cons, lowerFrom, lowerFrom, ← map_cons, ih (c :: before),
      uncase_beq (by decide), uncase_beq (by decide), uncase_congr lowerChar (by decide +kernel),
      meetsCased_map_uncase, meetsCased_map_uncase]

/-- The lower case of a text does not depend on its case. -/
@[simp] theorem lower_uncased (s : String) : lower (uncased s) = lower s := by
  rw [lower_eq, lower_eq, toList_uncased]
  exact congrArg String.ofList (lowerFrom_map_uncase [] s.toList)

theorem lower_eq_of_uncased_eq (h : uncased s = uncased t) : lower s = lower t := by
  rw [← lower_uncased s, h, lower_uncased]

/-! ## Names -/

/-- The characters of names, type marks included. -/
def isNameLetter (c : Char) : Bool :=
  Lexer.isNameChar c || Lexer.isTypeMark c

/-- A letter of a name whose lower case is a single letter. -/
def isPlainLetter (c : Char) : Bool :=
  c != 'Σ' && c != 'İ' && lowerChar c == uncase c && uncase c != '\u0307'

theorem ascii_or_mem_of_isNameLetter (h : isNameLetter c) :
    c.toNat < 128 ∨ c ∈ ['İ', 'ı', 'ſ', '\u212a'] := by
  by_contra other
  obtain ⟨high, rest⟩ := not_or.1 other
  have notUpper : ¬ (c.val ≥ 'A'.val ∧ c.val ≤ 'Z'.val) := fun between =>
    high (Nat.lt_of_le_of_lt (UInt32.le_iff_toNat_le.1 between.2) (by decide))
  have ascii (d : Char) (hd : d.toNat < 128) : c ≠ d := fun e => high (e ▸ hd)
  have letter : foldLetter c = c := by
    simp only [mem_cons, not_mem_nil, or_false, not_or] at rest
    have small : c.toLower = c := dif_neg notUpper
    simp [foldLetter, rest, small]
  have notLower : c.isLower = false := by
    rw [Bool.eq_false_iff]
    intro lower
    simp only [Char.isLower, Bool.and_eq_true, decide_eq_true_eq] at lower
    exact high (Nat.lt_of_le_of_lt (UInt32.le_iff_toNat_le.1 lower.2) (by decide))
  have notDigit : c.isDigit = false := by
    rw [Bool.eq_false_iff]
    intro digit
    simp only [Char.isDigit, Bool.and_eq_true, decide_eq_true_eq] at digit
    exact high (Nat.lt_of_le_of_lt (UInt32.le_iff_toNat_le.1 digit.2) (by decide))
  simp [isNameLetter, Lexer.isNameChar, Lexer.isNameStart, Lexer.isTypeMark, letter, notLower,
    notDigit, ascii _ (by decide : '_'.toNat < 128), ascii _ (by decide : '$'.toNat < 128),
    ascii _ (by decide : '%'.toNat < 128), ascii _ (by decide : '!'.toNat < 128),
    ascii _ (by decide : '#'.toNat < 128), ascii _ (by decide : '&'.toNat < 128)] at h

theorem isPlainLetter_of_isNameLetter (h : isNameLetter c) : c = 'İ' ∨ isPlainLetter c := by
  obtain ascii | mem := ascii_or_mem_of_isNameLetter h
  · right
    rw [← Char.ofNat_toNat c]
    exact (by decide +kernel : ∀ n : Fin 128, isPlainLetter (Char.ofNat n)) ⟨c.toNat, ascii⟩
  · have plain : ['İ', 'ı', 'ſ', '\u212a'].all (fun c => c == 'İ' || isPlainLetter c) := by
      decide +kernel
    simpa using all_eq_true.1 plain c mem

theorem lowerFrom_dotted (before cs : List Char) :
    lowerFrom before ('İ' :: cs) = 'i' :: '\u0307' :: lowerFrom ('İ' :: before) cs :=
  rfl

theorem lowerFrom_plain (h : isPlainLetter c) (before cs : List Char) :
    lowerFrom before (c :: cs) = uncase c :: lowerFrom (c :: before) cs := by
  simp only [isPlainLetter, Bool.and_eq_true, bne_iff_ne, beq_iff_eq] at h
  obtain ⟨⟨⟨notSigma, notDotted⟩, small⟩, -⟩ := h
  rw [lowerFrom, beq_false_of_ne notSigma, beq_false_of_ne notDotted, small]
  rfl

/-- The second character that U+0130 has in lower case begins the lower case of no name. -/
theorem lowerFrom_head?_ne {before cs : List Char} (names : ∀ c ∈ cs, isNameLetter c) :
    (lowerFrom before cs).head? ≠ some '\u0307' := by
  cases cs with
  | nil => simp [lowerFrom]
  | cons c cs =>
    obtain rfl | plain := isPlainLetter_of_isNameLetter (names c mem_cons_self)
    · rw [lowerFrom_dotted]
      simp
    · rw [lowerFrom_plain plain, head?_cons, ne_eq, Option.some.injEq]
      simp only [isPlainLetter, Bool.and_eq_true, bne_iff_ne] at plain
      exact plain.2

theorem map_uncase_eq_of_lowerFrom_eq {before before' cs ds : List Char}
    (first : ∀ c ∈ cs, isNameLetter c) (second : ∀ d ∈ ds, isNameLetter d)
    (h : lowerFrom before cs = lowerFrom before' ds) : cs.map uncase = ds.map uncase := by
  induction cs generalizing before before' ds with
  | nil =>
    cases ds with
    | nil => rfl
    | cons d ds =>
      obtain rfl | plain := isPlainLetter_of_isNameLetter (second d mem_cons_self)
      · rw [lowerFrom_dotted] at h
        cases h
      · rw [lowerFrom_plain plain] at h
        cases h
  | cons c cs ih =>
    have first' := fun d (hd : d ∈ cs) => first d (mem_cons_of_mem c hd)
    cases ds with
    | nil =>
      obtain rfl | plain := isPlainLetter_of_isNameLetter (first c mem_cons_self)
      · rw [lowerFrom_dotted] at h
        cases h
      · rw [lowerFrom_plain plain] at h
        cases h
    | cons d ds =>
      have second' := fun e (he : e ∈ ds) => second e (mem_cons_of_mem d he)
      obtain rfl | plain := isPlainLetter_of_isNameLetter (first c mem_cons_self) <;>
        obtain rfl | plain' := isPlainLetter_of_isNameLetter (second d mem_cons_self)
      · rw [lowerFrom_dotted, lowerFrom_dotted, List.cons.injEq, List.cons.injEq] at h
        rw [map_cons, map_cons, ih first' second' h.2.2]
      · rw [lowerFrom_dotted, lowerFrom_plain plain', List.cons.injEq] at h
        exact absurd (congrArg List.head? h.2.symm) (lowerFrom_head?_ne second')
      · rw [lowerFrom_dotted, lowerFrom_plain plain, List.cons.injEq] at h
        exact absurd (congrArg List.head? h.2) (lowerFrom_head?_ne first')
      · rw [lowerFrom_plain plain, lowerFrom_plain plain', List.cons.injEq] at h
        rw [map_cons, map_cons, h.1, ih first' second' h.2]

/-- A text that can be written as a name. -/
def isName (s : String) : Bool :=
  s.toList.all isNameLetter

/-- Names with the same lower case differ in case alone. -/
theorem uncased_eq_of_lower_eq (hs : isName s) (ht : isName t) (h : lower s = lower t) :
    uncased s = uncased t := by
  rw [lower_eq, lower_eq, String.ofList_inj] at h
  exact congrArg String.ofList
    (map_uncase_eq_of_lowerFrom_eq (all_eq_true.1 hs) (all_eq_true.1 ht) h)

end ChannelLint.Text
