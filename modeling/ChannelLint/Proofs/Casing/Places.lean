import ChannelLint.Edit
import ChannelLint.Proofs.Casing.Scripts
import ChannelLint.Proofs.Casing.Uses

/-!
# Where the names of a script stand

The offsets of the range of a name delimit the very letters of the name (`StandsIn`). The names of a
script (`Script.Named`) stand in its text one behind the other, so no two of them overlap.
-/
namespace ChannelLint

open List

variable {i : Ident} {names : List Ident}

/-! ## Offsets -/

variable {source : String}

/-- The offset of a position in a text. -/
def offsetIn (source : String) (p : Position) : Nat :=
  offsetOf (lineStarts source) source.length p

theorem Position.after_append (p : Position) (cs ds : List Char) :
    p.after (cs ++ ds) = (p.after cs).after ds :=
  foldl_append

/-- A position has its line among the line starts, its offset, and no later line start in front. -/
structure Position.OnLine (starts : List Nat) (offset : Nat) (p : Position) (start : Nat) :
    Prop where
  found : starts[p.line]? = some start
  reached : start + p.column = offset
  behind : ∀ next, starts[p.line + 1]? = some next → offset < next

/-- Behind the line starts in `before`, the last line starts at `start`, and `column` characters
of it are read. The position behind further characters has its line among the line starts. -/
theorem onLine_after (before : List Nat) (start column : Nat) (cs ds : List Char) :
    ∃ lineStart, ((⟨before.length, column⟩ : Position).after cs).OnLine
      (before ++ start :: lineStartsFrom (start + column) (cs ++ ds)) (start + column + cs.length)
      lineStart := by
  induction cs generalizing before start column with
  | nil =>
    refine ⟨start, by simp [Position.after], rfl, fun next found => ?_⟩
    have found := (getElem?_append_right (Nat.le_succ before.length)).symm.trans found
    exact lt_of_mem_lineStartsFrom (mem_of_getElem? (by simpa using found))
  | cons c cs ih =>
    by_cases feed : c = '\n'
    · subst feed
      obtain ⟨lineStart, onLine⟩ := ih (before ++ [start]) (start + column + 1) 0
      have next : (⟨before.length, column⟩ : Position).next '\n' =
          ⟨(before ++ [start]).length, 0⟩ := by
        simp [Position.next]
      refine ⟨lineStart, ?_⟩
      simpa [Position.after, next, lineStartsFrom, Nat.add_assoc, Nat.add_comm 1] using onLine
    · obtain ⟨lineStart, onLine⟩ := ih before start (column + 1)
      have next : (⟨before.length, column⟩ : Position).next c = ⟨before.length, column + 1⟩ := by
        simp [Position.next, feed]
      refine ⟨lineStart, ?_⟩
      simpa [Position.after, next, lineStartsFrom, feed, Nat.add_assoc, Nat.add_comm 1] using onLine

/-- The position behind the first part of a text is on its line. -/
theorem onLine_of_split {cs ds : List Char} (split : source.toList = cs ++ ds) :
    ∃ start, (Position.zero.after cs).OnLine (lineStarts source) cs.length start := by
  simpa [lineStarts, split, Position.zero] using onLine_after [] 0 0 cs ds

/-- A position behind the first part of a text has the length of that part as its offset. -/
theorem offsetIn_after {cs ds : List Char} (split : source.toList = cs ++ ds) :
    offsetIn source (Position.zero.after cs) = cs.length := by
  obtain ⟨start, onLine⟩ := onLine_of_split split
  have length : source.length = cs.length + ds.length := by
    rw [← String.length_toList, split, length_append]
  rw [offsetIn, offsetOf, onLine.found]
  exact (congrArg (min · _) onLine.reached).trans (Nat.min_eq_left (by omega))

/-- The text between the offsets of a range. -/
def textAt (source : String) (r : Range) : String :=
  String.ofList ((source.toList.take (offsetIn source r.stop)).drop (offsetIn source r.start))

/-- What stands between the positions behind two parts of a text. -/
theorem textAt_after {cs text ds : List Char} (split : source.toList = cs ++ text ++ ds) :
    textAt source ⟨Position.zero.after cs, Position.zero.after (cs ++ text)⟩ =
      String.ofList text := by
  have start := offsetIn_after (split.trans (append_assoc ..))
  have stop := offsetIn_after split
  rw [textAt, start, stop, split, take_left, drop_left]

/-- A name is what stands at its range. -/
structure StandsIn (source : String) (i : Ident) : Prop where
  place : ∃ before behind, source.toList = before ++ i.text.toList ++ behind ∧
    i.range = ⟨Position.zero.after before, Position.zero.after (before ++ i.text.toList)⟩
  start_lt : offsetIn source i.range.start < offsetIn source i.range.stop
  stop_le : offsetIn source i.range.stop ≤ source.length
  text : textAt source i.range = i.text
  isName : Text.isName i.text

theorem StandsIn.text_ne_empty (stands : StandsIn source i) : i.text ≠ "" := by
  intro empty
  obtain ⟨before, behind, -, range⟩ := stands.place
  have positive := stands.start_lt
  rw [range, empty] at positive
  simp at positive

/-- A name stands in the text if its letters do. -/
theorem StandsIn.of_place (before behind : List Char)
    (split : source.toList = before ++ i.text.toList ++ behind)
    (range : i.range = ⟨Position.zero.after before, Position.zero.after (before ++ i.text.toList)⟩)
    (nonempty : i.text ≠ "") (isName : Text.isName i.text) : StandsIn source i := by
  have start := offsetIn_after (split.trans (append_assoc ..))
  have stop := offsetIn_after split
  have positive : 0 < i.text.toList.length := by
    rw [String.length_toList]
    exact Nat.pos_of_ne_zero fun zero => nonempty (String.length_eq_zero_iff.1 zero)
  have total : source.length = before.length + i.text.toList.length + behind.length := by
    rw [← String.length_toList, split, length_append, length_append]
  rw [length_append] at stop
  refine ⟨⟨before, behind, split, range⟩, ?_, ?_, ?_, isName⟩
  · rw [range, start, stop]
    omega
  · rw [range, stop]
    omega
  · rw [range, textAt_after split, String.ofList_toList]

/-! ## The names of tokens -/

namespace Lexer

variable {cs : List Char} {t : Terminal} {length : Nat}

/-- What matches first matches by a lexeme of its kind. -/
theorem exists_scan (found : firstMatch cs = some (some t, length)) :
    ∃ scan, (some t, scan) ∈ lexemes ∧ scan cs = some length := by
  obtain ⟨⟨kind, scan⟩, listed, matched⟩ := exists_of_findSome?_eq_some found
  obtain ⟨taken, scanned, same⟩ := Option.map_eq_some_iff.1 matched
  obtain ⟨rfl, rfl⟩ := Prod.mk.inj same
  exact ⟨scan, listed, scanned⟩

/-- What matches first by a kind with one lexeme is what that lexeme takes. -/
theorem scan_of_firstMatch {scan : List Char → Option Nat}
    (only : ∀ lexeme ∈ lexemes, lexeme.1 = some t → lexeme.2 = scan)
    (found : firstMatch cs = some (some t, length)) : scan cs = some length := by
  obtain ⟨own, listed, scanned⟩ := exists_scan found
  rwa [← only _ listed rfl]

/-- A name token is made of letters of names, and so is `new`. -/
theorem letters_of_name {c : Char} (found : firstMatch (c :: cs) = some (some t, length))
    (named : classify t (c :: cs.take (length - 1)) = .name ∨
      classify t (c :: cs.take (length - 1)) = .kwNew) :
    (c :: cs.take (length - 1)).all Text.isNameLetter := by
  have terminal : t = .name := by
    unfold classify at named
    split at named
    · assumption
    · obtain rfl | rfl := named
      · rfl
      · obtain ⟨scan, listed, -⟩ := exists_scan found
        simp [lexemes] at listed
  subst terminal
  have scanned : name (c :: cs) = some length := scan_of_firstMatch (by simp [lexemes]) found
  rw [name] at scanned
  split at scanned
  · next starts =>
    obtain rfl := Option.some.inj scanned
    have body : ∀ d ∈ cs.takeWhile isNameChar, Text.isNameLetter d := fun d member => by
      simp [Text.isNameLetter, all_eq_true.1 all_takeWhile d member]
    have split : cs.takeWhile isNameChar ++ cs.dropWhile isNameChar = cs :=
      takeWhile_append_dropWhile
    generalize cs.takeWhile isNameChar = word at *
    generalize cs.dropWhile isNameChar = rest at *
    subst split
    rw [drop_left, Nat.add_assoc, Nat.add_sub_cancel_left, take_length_add_append,
      all_cons, all_append, Bool.and_eq_true, Bool.and_eq_true, all_eq_true]
    refine ⟨by simp [Text.isNameLetter, isNameChar, starts], body, ?_⟩
    -- Behind the word there is at most a type mark.
    cases rest with
    | nil => rfl
    | cons d rest =>
      by_cases mark : isTypeMark d
      · simp [optional, oneChar, mark, Text.isNameLetter]
      · simp [optional, oneChar, mark]
  · cases scanned

end Lexer

/-! ## The names of a script -/

theorem Func.parts_of_unplaced {f g : Func} (same : g.unplaced = f.unplaced) :
    g.params = f.params ∧ g.body = f.body ∧ g.isMethod = f.isMethod := by
  have params : g.unplaced.params = f.unplaced.params := congrArg Func.params same
  have body : g.unplaced.body = f.unplaced.body := congrArg Func.body same
  have isMethod : g.unplaced.isMethod = f.unplaced.isMethod := congrArg Func.isMethod same
  exact ⟨params, body, isMethod⟩

theorem Func.unplaced_functions_place (f : Func) (outer : Option String) :
    ({ f with nspace := outer } : Func).functions.map Func.unplaced =
      f.functions.map Func.unplaced := by
  rw [Func.functions_eq, Func.functions_eq]
  rfl

theorem ClassMember.unplaced_functions_place (m : ClassMember) (outer : Option String) :
    (m.place outer).functions.map Func.unplaced = m.functions.map Func.unplaced := by
  cases m with
  | method name func => exact func.unplaced_functions_place outer
  | field name type value range => rfl

mutual

/-- A declaration has the same functions in any namespace. -/
theorem Decl.unplaced_flatten_place (d : Decl) (outer : Option String) :
    ((d.place outer).flatten.flatMap (·.functions)).map Func.unplaced =
      (d.flatten.flatMap (·.functions)).map Func.unplaced := by
  cases d with
  | function name func =>
    simp only [Decl.place, Decl.flatten, flatMap_singleton]
    exact func.unplaced_functions_place outer
  | «class» decl =>
    simp only [Decl.place, Decl.flatten, flatMap_singleton, Decl.functions, flatMap_map,
      map_flatMap, ClassMember.unplaced_functions_place]
  | nspace name body range =>
    exact Decl.unplaced_flattenAll_placeAll body (some (Text.lower (qualifiedName outer name)))
  | _ => rfl

theorem Decl.unplaced_flattenAll_placeAll (ds : List Decl) (outer : Option String) :
    (Decl.allFunctions (Decl.placeAll outer ds)).map Func.unplaced =
      (Decl.allFunctions ds).map Func.unplaced := by
  cases ds with
  | nil => rfl
  | cons d rest =>
    have first := d.unplaced_flatten_place outer
    have others := Decl.unplaced_flattenAll_placeAll rest outer
    simp only [Decl.allFunctions] at others ⊢
    simp only [Decl.placeAll, Decl.flattenAll, flatMap_append, map_append, first, others]

end

/-- Placing declarations in their namespaces keeps the parameters and bodies of their functions. -/
theorem Decl.exists_unplaced {ds : List Decl} {outer : Option String} {f : Func}
    (member : f ∈ Decl.allFunctions (Decl.placeAll outer ds)) :
    ∃ g ∈ Decl.allFunctions ds, g.unplaced = f.unplaced := by
  have moved := mem_map_of_mem (f := Func.unplaced) member
  rw [Decl.unplaced_flattenAll_placeAll] at moved
  exact mem_map.1 moved

/-- The names of a script, in the order of its text. A name stands in one function only, and there
it is a parameter or is used in the body. -/
structure Script.Named (source : String) (s : Script) (names : List Ident) : Prop where
  stand : ∀ i ∈ names, StandsIn source i
  ordered : names.Pairwise fun i j => offsetIn source i.range.stop ≤ offsetIn source j.range.start
  inner : ∀ f ∈ s.functions, ∀ i ∈ f.names, i ∈ names
  distinct : ∀ f ∈ s.functions, ∀ g ∈ s.functions, ∀ i ∈ f.names, ∀ j ∈ g.names,
    i.range = j.range → f.unplaced = g.unplaced
  params : ∀ f ∈ s.functions, ∀ i ∈ f.paramNames, ∀ j ∈ f.uses, i.range ≠ j.range

/-- Two of the names are the same or do not overlap. -/
theorem Script.Named.apart {s : Script}
    (named : s.Named source names) {j : Ident} (hi : i ∈ names) (hj : j ∈ names) :
    i = j ∨ offsetIn source i.range.stop ≤ offsetIn source j.range.start ∨
      offsetIn source j.range.stop ≤ offsetIn source i.range.start := by
  have all : ∀ i ∈ names, ∀ j ∈ names, i = j ∨
      offsetIn source i.range.stop ≤ offsetIn source j.range.start ∨
      offsetIn source j.range.stop ≤ offsetIn source i.range.start :=
    List.Pairwise.forall_of_forall_of_flip (fun i _ => .inl rfl)
      (named.ordered.imp fun before => .inr (.inl before))
      (named.ordered.imp fun before => .inr (.inr before))
  exact all i hi j hj

theorem Script.Named.eq_of_range {s : Script}
    (named : s.Named source names) {j : Ident} (hi : i ∈ names) (hj : j ∈ names)
    (same : i.range = j.range) : i = j := by
  have positive := (named.stand i hi).start_lt
  rcases named.apart hi hj with rfl | before | behind
  · rfl
  · rw [← same] at before
    omega
  · rw [← same] at behind
    omega

end ChannelLint
