import ChannelLint.Proofs.Casing.Declarations
import ChannelLint.Scope
import ChannelLint.Script.Reader

/-!
# Scripts without their case

A text without its case is read to the same declarations without their case, or it is refused at the
same place (`parseDeclarations_map`).
-/
namespace ChannelLint

open List Text

/-- A fault in a text without its case. -/
def ScriptFault.uncase : ScriptFault → ScriptFault
  | unexpectedToken text p => unexpectedToken (uncased text) p
  | unexpectedCharacter c p => unexpectedCharacter (Text.uncase c) p
  | unexpectedEnd => unexpectedEnd
  | badTemplate => badTemplate

theorem ScriptFault.location?_uncase (f : ScriptFault) : f.uncase.location? = f.location? := by
  cases f <;> rfl

theorem ok_of_toOption {ε α : Type} {x : Except ε α} {a : α} (h : x.toOption = some a) :
    x = .ok a := by
  cases x with
  | error e => cases h
  | ok b => exact congrArg _ (Option.some.inj h)

theorem exists_ok_of_map_toOption {ε α β : Type} {x : Except ε α} {view : α → β} {b : β}
    (seen : x.toOption.map view = some b) : ∃ a, x = .ok a ∧ view a = b := by
  obtain ⟨a, accepted, same⟩ := Option.map_eq_some_iff.1 seen
  exact ⟨a, ok_of_toOption accepted, same⟩

namespace Parser

/-! ## Whole texts -/

section

variable {α : Type} {r : Reading α} {parser : Nat → Parser α}

theorem faultAt_uncase (stuck : Stuck) (ending : Lexer.Ending) :
    faultAt (stuck.map Token.uncase) ending.uncase =
      (faultAt stuck ending).map ScriptFault.uncase := by
  cases stuck <;> cases ending <;> rfl

theorem runAll_map_uncase (h : ∀ n, Blind r (parser n)) (p : Position) (cs : List Char) :
    runAll parser p (cs.map uncase) =
      ((runAll parser p cs).map r).mapError ScriptFault.uncase := by
  unfold runAll
  rw [Lexer.lexFrom_map]
  generalize Lexer.lexFrom p cs = lexed
  have length : lexed.uncase.tokens.length = lexed.tokens.length := length_map ..
  have ending : lexed.uncase.ending = lexed.ending.uncase := rfl
  simp only [length, ending]
  have same := h (lexed.tokens.length + 2) ⟨lexed.tokens, p, false⟩
  cases run : (parser (lexed.tokens.length + 2)).run ⟨lexed.tokens, p, false⟩ with
  | error stuck =>
    rw [run] at same
    have run' : (parser (lexed.tokens.length + 2)).run ⟨lexed.uncase.tokens, p, false⟩ =
      .error (stuck.map Token.uncase) := same
    simp only [run', faultAt_uncase]
    cases faultAt stuck lexed.ending <;> rfl
  | ok result =>
    obtain ⟨a, c⟩ := result
    rw [run] at same
    have run' : (parser (lexed.tokens.length + 2)).run ⟨lexed.uncase.tokens, p, false⟩ =
      .ok (r a, c.uncase) := same
    have stuck : c.uncase.rest.head? = c.rest.head?.map Token.uncase := head?_map ..
    have bad : c.uncase.badTemplate = c.badTemplate := rfl
    simp only [run', stuck, bad, faultAt_uncase]
    cases faultAt c.rest.head? lexed.ending with
    | some fault => rfl
    | none => cases c.badTemplate <;> rfl

end

/-! ## Templates -/

theorem embeddedExpr_reads {rules : Rules} (h : rules.Alike) : Blind .expr (embeddedExpr rules) :=
  skipMany_reads.bind fun _ => h.expr

theorem mapM_map {α β : Type} {f g : α → Option β} {φ : β → β}
    (each : ∀ a, g a = (f a).map φ) (parts : List α) :
    parts.mapM g = (parts.mapM f).map (List.map φ) := by
  induction parts with
  | nil => rfl
  | cons a parts ih =>
    rw [mapM_cons, mapM_cons, each, ih]
    cases f a with
    | none => rfl
    | some b => cases parts.mapM f <;> rfl

theorem embeddedUpTo_alike (n : Nat) (token : Token) : embeddedUpTo n token.uncase =
      (embeddedUpTo n token).map (List.map (Expr.respell .uncase)) := by
  induction n generalizing token with
  | zero => rfl
  | succ n ih =>
    have rules (fuel : Nat) := embeddedExpr_reads (rulesUpTo_alike ih fuel)
    simp only [embeddedUpTo, Token.uncase, Template.spans_uncased, toList_uncased]
    refine mapM_map (fun span => ?_) (Template.spans token.text)
    obtain ⟨start, stop⟩ := span
    simp only [← map_take, ← map_drop, Position.after_map_uncase, runAll_map_uncase rules]
    generalize runAll _ _ _ = result
    cases result <;> rfl

theorem script_reads (depth fuel : Nat) : Blind Reading.decl.list (script depth fuel) :=
  scriptLines_reads (declarationUpTo_reads (rulesUpTo_alike (embeddedUpTo_alike depth) fuel) fuel)

end Parser

/-! ## Scripts -/

theorem dropByteOrderMark_map (cs : List Char) :
    dropByteOrderMark (cs.map uncase) = (dropByteOrderMark cs).map uncase := by
  cases cs with
  | nil => rfl
  | cons c cs =>
    by_cases mark : c = '\ufeff'
    · subst mark
      rfl
    · have other : uncase c ≠ '\ufeff' := fun e =>
        mark ((uncase_eq_iff (by decide) c).1 e)
      simp [dropByteOrderMark, mark, other]

/-- The declarations of a text before they are placed in their namespaces. -/
def parseDeclarations (cs : List Char) : Except ScriptFault (List Decl) :=
  Parser.runAll (Parser.script (cs.length + 1)) .zero cs

theorem readDeclarations_eq (source : String) : readDeclarations source =
      (parseDeclarations (dropByteOrderMark source.toList)).map (Decl.placeAll none) := by
  show (parseDeclarations (dropByteOrderMark source.toList) >>= fun ds =>
    pure (Decl.placeAll none ds)) = _
  cases parseDeclarations (dropByteOrderMark source.toList) <;> rfl

/-- The text of a script without the mark it may start with. -/
def unmarkedText (source : String) : String :=
  String.ofList (dropByteOrderMark source.toList)

theorem dropByteOrderMark_eq {cs : List Char} (unmarked : cs.head? ≠ some '\ufeff') :
    dropByteOrderMark cs = cs := by
  cases cs with
  | nil => rfl
  | cons c cs =>
    rw [head?_cons, ne_eq, Option.some.injEq] at unmarked
    simp [dropByteOrderMark, unmarked]

theorem unmarkedText_eq {source : String} (unmarked : source.toList.head? ≠ some '\ufeff') :
    unmarkedText source = source := by
  rw [unmarkedText, dropByteOrderMark_eq unmarked, String.ofList_toList]

/-- A script holds the declarations of its text, each placed in its namespace. -/
theorem Script.read_eq (source path pkgPath : String) : Script.read source path pkgPath =
      (parseDeclarations (unmarkedText source).toList).map fun ds =>
        ⟨path, if pkgPath.isEmpty then path else pkgPath, source, Decl.placeAll none ds⟩ := by
  unfold Script.read
  rw [readDeclarations_eq, unmarkedText, String.toList_ofList]
  cases parseDeclarations (dropByteOrderMark source.toList) <;> rfl

theorem Script.exists_parsed {source path pkgPath : String} {s : Script}
    (read : Script.read source path pkgPath = .ok s) :
    ∃ ds, parseDeclarations (unmarkedText source).toList = .ok ds ∧
      s = ⟨path, if pkgPath.isEmpty then path else pkgPath, source, Decl.placeAll none ds⟩ := by
  rw [Script.read_eq] at read
  cases parsed : parseDeclarations (unmarkedText source).toList with
  | error fault =>
    rw [parsed] at read
    cases read
  | ok ds =>
    rw [parsed] at read
    cases read
    exact ⟨ds, rfl, rfl⟩

theorem parseDeclarations_map (cs : List Char) : parseDeclarations (cs.map uncase) =
      ((parseDeclarations cs).map (List.map Decl.uncase)).mapError ScriptFault.uncase := by
  rw [parseDeclarations, length_map]
  exact Parser.runAll_map_uncase (Parser.script_reads _) .zero cs

/-! ## Declarations in their namespaces -/

/-- The second declaration is the first one without its case, as far as functions and scopes can
tell. -/
structure Decl.LosesCase (d u : Decl) : Prop where
  functions : u.functions = d.functions.map (·.respell .uncase)
  callable : u.callable? = d.callable?
  toplevel : u.toplevel = d.toplevel

theorem lower_qualifiedName (outer : Option String) (name : String) :
    lower (qualifiedName outer (uncased name)) = lower (qualifiedName outer name) := by
  apply lower_eq_of_uncased_eq
  unfold qualifiedName
  split
  · exact uncased_uncased name
  · split
    · exact uncased_uncased name
    · simp only [uncased_append, uncased_uncased]

theorem Func.respell_placed (f : Func) (outer : Option String) :
    { f.respell .uncase with nspace := outer } =
      ({ f with nspace := outer } : Func).respell .uncase := by
  cases f
  rfl

theorem ClassMember.functions_place_uncase (m : ClassMember) (outer : Option String) :
    (m.uncase.place outer).functions = (m.place outer).functions.map (·.respell .uncase) := by
  cases m with
  | method name func =>
    show ({ func.respell .uncase with nspace := outer } : Func).functions = _
    rw [Func.respell_placed]
    exact Func.functions_respell .uncase _
  | field name type value range =>
    show Expr.functionsOf? (value.map (·.respell .uncase)) = _
    rw [← Expr.respell?_eq]
    exact Expr.functionsOf?_respell .uncase value

theorem inNamespace_uncased (outer : Option String) (name : String) :
    inNamespace outer (lower (uncased name)) = inNamespace outer (lower name) := by
  rw [lower_uncased]

mutual

theorem Decl.flatten_place_uncase (d : Decl) (outer : Option String) :
    List.Forall₂ Decl.LosesCase (d.place outer).flatten (d.uncase.place outer).flatten := by
  cases d with
  | function name func =>
    refine .cons ⟨?_, congrArg some (inNamespace_uncased outer name.text), rfl⟩ .nil
    show ({ func.respell .uncase with nspace := outer } : Func).functions = _
    rw [Func.respell_placed]
    exact Func.functions_respell .uncase _
  | «class» decl =>
    refine .cons ⟨?_, rfl, congrArg ([·]) (inNamespace_uncased outer decl.name.text)⟩ .nil
    show ((decl.members.map (·.uncase)).map (·.place outer)).flatMap (·.functions) =
      ((decl.members.map (·.place outer)).flatMap (·.functions)).map (·.respell .uncase)
    simp only [flatMap_map, map_flatMap, ClassMember.functions_place_uncase]
  | nspace name body range =>
    refine .cons ⟨rfl, rfl, ?_⟩ ?_
    · show dottedPrefixes (dottedParts (lower (qualifiedName outer (uncased name)))) = _
      rw [lower_qualifiedName]
      rfl
    · show List.Forall₂ _ _ (Decl.flattenAll (Decl.placeAll
        (some (lower (qualifiedName outer (uncased name)))) (Decl.uncaseAll body)))
      rw [lower_qualifiedName]
      exact Decl.flattenAll_placeAll_uncase body _
  | const name _ _ _ | enum name _ _ _ =>
    exact .cons ⟨rfl, rfl, congrArg ([·]) (inNamespace_uncased outer name.text)⟩ .nil
  | importFile path range | library path range => exact .cons ⟨rfl, rfl, rfl⟩ .nil

theorem Decl.flattenAll_placeAll_uncase (ds : List Decl) (outer : Option String) :
    List.Forall₂ Decl.LosesCase (Decl.flattenAll (Decl.placeAll outer ds))
      (Decl.flattenAll (Decl.placeAll outer (Decl.uncaseAll ds))) := by
  cases ds with
  | nil => exact .nil
  | cons d rest =>
    exact rel_append (d.flatten_place_uncase outer)
      (Decl.flattenAll_placeAll_uncase rest outer)

end

/-- The second script is the first one without its case. -/
structure Script.LosesCase (s u : Script) : Prop where
  path : u.path = s.path
  pkgPath : u.pkgPath = s.pkgPath
  functions : u.functions = s.functions.map (·.respell .uncase)
  callables : u.callables = s.callables
  toplevel : u.toplevel = s.toplevel

theorem Script.losesCase_of_decls {s u : Script} (path : u.path = s.path)
    (pkgPath : u.pkgPath = s.pkgPath)
    (decls : List.Forall₂ Decl.LosesCase s.allDecls u.allDecls) : s.LosesCase u := by
  have all {ds us : List Decl} (decls : List.Forall₂ Decl.LosesCase ds us) :
      us.flatMap (·.functions) = (ds.flatMap (·.functions)).map (·.respell .uncase) ∧
        us.filterMap (·.callable?) = ds.filterMap (·.callable?) ∧
        us.flatMap (·.toplevel) = ds.flatMap (·.toplevel) := by
    induction decls with
    | nil => exact ⟨rfl, rfl, rfl⟩
    | cons same _ ih =>
      simp only [flatMap_cons, filterMap_cons, map_append, same.functions,
        same.callable, same.toplevel, ih, and_self]
  obtain ⟨functions, callables, toplevel⟩ := all decls
  exact ⟨path, pkgPath, functions, callables, toplevel⟩

/-- A script without its case is read like the script, or refused at the same place. -/
theorem Script.read_uncased (source path pkgPath : String) :
    (∃ fault, Script.read source path pkgPath = .error fault ∧
      Script.read (uncased source) path pkgPath = .error fault.uncase) ∨
    ∃ s u, Script.read source path pkgPath = .ok s ∧
      Script.read (uncased source) path pkgPath = .ok u ∧ s.LosesCase u := by
  have parsed := readDeclarations_eq source
  have parsed' := readDeclarations_eq (uncased source)
  rw [toList_uncased, dropByteOrderMark_map, parseDeclarations_map] at parsed'
  unfold Script.read
  rw [parsed, parsed']
  cases parseDeclarations (dropByteOrderMark source.toList) with
  | error fault => exact .inl ⟨fault, rfl, rfl⟩
  | ok ds =>
    refine .inr ⟨_, _, rfl, rfl, Script.losesCase_of_decls rfl rfl ?_⟩
    rw [← Decl.uncaseAll_eq]
    exact Decl.flattenAll_placeAll_uncase ds none

section

variable {source other : String} (same : uncased source = uncased other) {path pkgPath : String}

include same

/-- A text that differs from an accepted one in case alone is accepted too. -/
theorem Script.read_ok_of_uncased_eq {s : Script} (read : Script.read source path pkgPath = .ok s) :
    ∃ s' u, Script.read other path pkgPath = .ok s' ∧ s.LosesCase u ∧ s'.LosesCase u := by
  obtain ⟨fault, refused, -⟩ | ⟨t, u, accepted, plain, loses⟩ :=
    Script.read_uncased source path pkgPath
  · rw [read] at refused
    cases refused
  · rw [read] at accepted
    cases accepted
    obtain ⟨fault, -, refused⟩ | ⟨s', u', read', plain', loses'⟩ :=
      Script.read_uncased other path pkgPath
    · rw [← same, plain] at refused
      cases refused
    · rw [← same, plain] at plain'
      cases plain'
      exact ⟨s', u, read', loses, loses'⟩

/-- A text that differs from a refused one in case alone is refused at the same place. -/
theorem Script.read_error_of_uncased_eq {fault : ScriptFault}
    (refused : Script.read source path pkgPath = .error fault) :
    ∃ fault', Script.read other path pkgPath = .error fault' ∧
      fault'.location? = fault.location? := by
  obtain ⟨f, refused', plain⟩ | ⟨t, u, accepted, -, -⟩ := Script.read_uncased source path pkgPath
  · rw [refused] at refused'
    cases refused'
    obtain ⟨fault', refusedOther, plain'⟩ | ⟨s', u', -, plain', -⟩ :=
      Script.read_uncased other path pkgPath
    · rw [← same, plain] at plain'
      refine ⟨fault', refusedOther, ?_⟩
      rw [← fault'.location?_uncase, ← fault.location?_uncase, Except.error.inj plain']
    · rw [← same, plain] at plain'
      cases plain'
  · rw [refused] at accepted
    cases accepted

end

end ChannelLint
