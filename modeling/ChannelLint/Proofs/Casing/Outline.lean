import ChannelLint.Flow.Session
import ChannelLint.Proofs.Casing.Scripts
import ChannelLint.Proofs.Casing.Traces

/-!
# Diagnostics do not depend on case

The outline of some diagnostics leaves out those about the case of names, and of all others what
depends on how a name is written. Two texts that differ in case alone are both refused at the same
place, or have the same outline. Both texts are compared with their common text without case: the
walks over the functions have the same traces, the scope knows the same names, and the order of
diagnostics does not look at names.
-/
namespace ChannelLint

open List

/-! ## Order -/

section

variable {α : Type} {le : α → α → Bool}

/-- The first element goes between what comes before it and what does not. -/
theorem mergeSort_cons_eq (trans : ∀ a b c, le a b → le b c → le a c)
    (total : ∀ a b, le a b || le b a) (a : α) (l : List α) : (a :: l).mergeSort le =
        (l.mergeSort le).filter (!le a ·) ++ a :: (l.mergeSort le).filter (le a ·) ∧
      l.mergeSort le = (l.mergeSort le).filter (!le a ·) ++ (l.mergeSort le).filter (le a ·) := by
  obtain ⟨l₁, l₂, sorted, rest, before⟩ := mergeSort_cons trans total a l
  have after : ∀ b ∈ l₂, le a b := by
    have pairs := pairwise_mergeSort trans total (a :: l)
    rw [sorted] at pairs
    exact (pairwise_cons.1 (pairwise_append.1 pairs).2.1).1
  have first : (l₁ ++ l₂).filter (!le a ·) = l₁ := by
    rw [filter_append, filter_eq_self.2 before,
      filter_eq_nil_iff.2 (by simpa using after), append_nil]
  have second : (l₁ ++ l₂).filter (le a ·) = l₂ := by
    rw [filter_append, filter_eq_self.2 after,
      filter_eq_nil_iff.2 (by simpa using before), nil_append]
  rw [sorted, rest, first, second]
  exact ⟨rfl, rfl⟩

/-- Sorting keeps the order of what ties, so leaving elements out commutes with it. -/
theorem filter_mergeSort (trans : ∀ a b c, le a b → le b c → le a c)
    (total : ∀ a b, le a b || le b a) (p : α → Bool) (l : List α) :
    (l.mergeSort le).filter p = (l.filter p).mergeSort le := by
  induction l with
  | nil => simp
  | cons a l ih =>
    obtain ⟨inserted, parted⟩ := mergeSort_cons_eq trans total a (l.filter p)
    rw [(mergeSort_cons_eq trans total a l).1, filter_append, filter_cons, filter_cons,
      filter_comm, filter_comm p (le a ·), ih]
    cases p a with
    | false => exact parted.symm
    | true => exact inserted.symm

end

/-- What a diagnostic says apart from names. -/
structure Remark where
  severity : Severity
  code : Code
  range : Range
  tags : List String
  deriving DecidableEq, Repr

/-- What the diagnostics of one file are ordered by. -/
def Remark.rank (r : Remark) : Lex (Nat × Lex (Nat × String)) :=
  toLex (r.range.start.line, toLex (r.range.start.column, r.code.text))

namespace Diagnostic

def remark (d : Diagnostic) : Remark :=
  ⟨d.severity, d.code, d.range, d.issue.tags⟩

/-- What diagnostics are ordered by. -/
def rank (d : Diagnostic) : Lex (String × Lex (Nat × Lex (Nat × String))) :=
  toLex (d.file, d.remark.rank)

theorem precedes_iff (a b : Diagnostic) : a.precedes b ↔ a.rank ≤ b.rank := by
  simp only [precedes, rank, Remark.rank, remark, Prod.Lex.toLex_le_toLex, bne_iff_ne, ne_eq,
    Bool.ite_eq_true_distrib, decide_eq_true_eq]
  split
  · next differs => simp [differs]
  · next same =>
    have same : a.file = b.file := by simpa using same
    split
    · next differs => simp [same, differs]
    · next sameLine =>
      have sameLine : a.range.start.line = b.range.start.line := by simpa using sameLine
      split
      · next differs => simp [same, sameLine, differs]
      · next sameColumn =>
        have sameColumn : a.range.start.column = b.range.start.column := by simpa using sameColumn
        simp [same, sameLine, sameColumn]

theorem filter_sort (p : Diagnostic → Bool) (ds : List Diagnostic) :
    (sort ds).filter p = sort (ds.filter p) := by
  apply filter_mergeSort
  · intro a b c
    simpa only [precedes_iff] using le_trans
  · intro a b
    simpa only [Bool.or_eq_true, precedes_iff] using le_total a.rank b.rank

end Diagnostic

/-! ## Outlines -/

/-- What some diagnostics say apart from names and their case. -/
def Diagnostic.outline (ds : List Diagnostic) : List Remark :=
  (ds.filter (·.code ≠ .caseMismatch)).map remark

/-- What some findings say apart from names and their case. -/
def Finding.gist (fs : List Finding) : List (Code × Range × List String) :=
  (fs.filter (·.issue.code ≠ .caseMismatch)).map fun f => (f.issue.code, f.range, f.issue.tags)

theorem Finding.gist_append (fs gs : List Finding) :
    Finding.gist (fs ++ gs) = Finding.gist fs ++ Finding.gist gs := by
  simp only [Finding.gist, filter_append, map_append]

theorem Finding.gist_flatMap_congr {α : Type} {f g : α → List Finding} {parts : List α}
    (same : ∀ a ∈ parts, Finding.gist (f a) = Finding.gist (g a)) :
    Finding.gist (parts.flatMap f) = Finding.gist (parts.flatMap g) := by
  induction parts with
  | nil => rfl
  | cons a parts ih =>
    obtain ⟨here, others⟩ := forall_mem_cons.1 same
    simp only [flatMap_cons, Finding.gist_append, here, ih others]

/-- The remark on a finding, unless its rule is off. -/
def Settings.remark? (s : Settings) (gist : Code × Range × List String) : Option Remark :=
  (s.severity? gist.1.rule).map fun severity => ⟨severity, gist.1, gist.2.1, gist.2.2⟩

theorem Settings.outline_report (s : Settings) (file : String) (fs : List Finding) :
    Diagnostic.outline (s.report file fs) = (Finding.gist fs).filterMap s.remark? := by
  have each (f : Finding) :
      ((s.report? file f).filter (·.code ≠ .caseMismatch)).map Diagnostic.remark =
        if f.issue.code ≠ .caseMismatch then s.remark? (f.issue.code, f.range, f.issue.tags)
        else none := by
    unfold Settings.report? Settings.remark?
    cases s.severity? f.issue.code.rule with
    | none => simp
    | some severity => by_cases kept : f.issue.code = .caseMismatch <;>
        simp [Option.filter, Diagnostic.code, Diagnostic.remark, kept]
  unfold Diagnostic.outline Settings.report Finding.gist
  rw [filter_filterMap, map_filterMap, filterMap_map, filterMap_filter]
  exact filterMap_congr fun f _ => by simpa using each f

/-- The outline of diagnostics in one file is sorted like the diagnostics. -/
theorem Diagnostic.outline_sort {file : String} {ds : List Diagnostic}
    (sameFile : ∀ d ∈ ds, d.file = file) :
    outline (sort ds) = (outline ds).mergeSort (·.rank ≤ ·.rank) := by
  unfold outline
  rw [filter_sort]
  refine map_mergeSort fun a inA b inB => ?_
  have same : a.file = b.file :=
    (sameFile a (mem_filter.1 inA).1).trans (sameFile b (mem_filter.1 inB).1).symm
  rw [Bool.eq_iff_iff, precedes_iff, rank, rank, same, Prod.Lex.toLex_le_toLex]
  simp

theorem Settings.file_of_report {s : Settings} {file : String} {fs : List Finding} :
    ∀ d ∈ s.report file fs, d.file = file := by
  intro d member
  obtain ⟨f, -, reported⟩ := mem_filterMap.1 member
  obtain ⟨severity, -, rfl⟩ := Option.map_eq_some_iff.1 reported
  rfl

/-! ## Linting -/

/-- The scope of a script that is alone. -/
def Script.ownScope (s : Script) : Scope :=
  (Scope.withBuiltins "source").addFile s

/-- What is found in a script that is alone in its scope. -/
def Script.lintFindings (settings : Settings) (s : Script) : List Finding :=
  let flow := s.flow settings.loopsBranch
  flow.findings ++ Session.unknownUses settings s.ownScope flow.deferred

theorem lintScript_eq (settings : Settings) (s : Script) :
    lintScript settings s = if settings.isIgnored s.path then []
      else Diagnostic.sort (settings.report s.pkgPath (s.lintFindings settings)) := by
  have files : s.ownScope.files = [s] := rfl
  have get (uses : List DeferredUse) :
      Session.get ⟨(∅ : OrderedMap (List DeferredUse)).insert s.path uses⟩ s.path = uses := by
    rw [Session.get, OrderedMap.find?_insert_self, Option.getD_some]
  unfold lintScript Session.analyze
  by_cases ignored : settings.isIgnored s.path
  · rw [if_pos ignored, if_pos ignored]
    show Diagnostic.sort ([] ++ s.ownScope.files.flatMap _) = []
    rw [files, flatMap_singleton, Session.reset, get]
    exact mergeSort_nil
  · rw [if_neg ignored, if_neg ignored]
    show Diagnostic.sort (_ ++ s.ownScope.files.flatMap _) = _
    rw [files, flatMap_singleton, get, Script.lintFindings, Settings.report, Settings.report,
      Settings.report, filterMap_append]
    rfl

/-- Entries of a trace have the same gist however they are spelled. -/
theorem TraceEntry.gist_respell {events : List Event} {V : Vocabulary} (ρ : Respelling)
    {e : TraceEntry} (fits : e.Fits events V) :
    Finding.gist (e.respell ρ).findings = Finding.gist e.findings := by
  have quiet (name known : Ident) : Finding.gist (name.mismatch known) = [] := by
    unfold Ident.mismatch
    split
    · rfl
    · simp [Finding.gist, Issue.code]
  cases e with
  | note f =>
    have kept : f.issue.code ≠ .caseMismatch := fits.1
    simp [TraceEntry.respell, TraceEntry.findings, Finding.gist, kept]
  | compare name known =>
    show Finding.gist (Ident.mismatch _ _) = Finding.gist (Ident.mismatch _ _)
    rw [quiet, quiet]

theorem Func.gist_flow_respell (f : Func) (ρ : Respelling) (loopsBranch : Bool) :
    Finding.gist ((f.respell ρ).flow loopsBranch).findings =
      Finding.gist (f.flow loopsBranch).findings := by
  obtain ⟨entries, fit, -, reported, same⟩ := (f.flow_respell ρ loopsBranch).trace
  rw [same, reported]
  exact Finding.gist_flatMap_congr fun e member => TraceEntry.gist_respell ρ (fit e member)

/-- A deferred use of a respelled function. -/
def DeferredUse.respell (ρ : Respelling) (d : DeferredUse) : DeferredUse :=
  ⟨d.use.respell ρ, d.nspace⟩

theorem DeferredUse.candidates_respell (ρ : Respelling) (d : DeferredUse) :
    (d.respell ρ).candidates = d.candidates := by
  have key : Text.lower (d.use.respell ρ).name = Text.lower d.use.name := ρ.lower_name _
  simp only [DeferredUse.candidates, DeferredUse.respell, key]

theorem Func.deferredUses_flow_respell (f : Func) (ρ : Respelling) (loopsBranch : Bool) :
    (f.respell ρ).deferredUses ((f.respell ρ).flow loopsBranch) =
      (f.deferredUses (f.flow loopsBranch)).map (·.respell ρ) := by
  obtain ⟨fs, same⟩ := (f.flow_respell ρ loopsBranch).respelled
  have nspace : (f.respell ρ).nspace = f.nspace := by
    cases f
    rfl
  unfold Func.deferredUses
  rw [same, nspace, map_map, Walk.respell, map_map]
  rfl

theorem Session.gist_unknownUses (settings : Settings) (scope : Scope) (uses : List DeferredUse) :
    Finding.gist (unknownUses settings scope uses) =
      (uses.filter (!isKnown settings scope ·)).map
        fun d => (.uninitializedVariable, d.use.range, []) := by
  unfold unknownUses Finding.gist
  rw [filter_eq_self.2, map_map]
  · rfl
  · intro f member
    obtain ⟨d, -, rfl⟩ := mem_map.1 member
    rfl

namespace Script.LosesCase

variable {s u : Script}

theorem isKnown_respell (same : s.LosesCase u) (settings : Settings) (d : DeferredUse) :
    Session.isKnown settings u.ownScope (d.respell .uncase) =
      Session.isKnown settings s.ownScope d := by
  have callables : u.ownScope.callables = s.ownScope.callables :=
    congrArg (addNames _) same.callables
  have toplevel : u.ownScope.toplevel = s.ownScope.toplevel := congrArg (addNames _) same.toplevel
  unfold Session.isKnown
  rw [callables, toplevel, DeferredUse.candidates_respell]

theorem gist_lintFindings (same : s.LosesCase u) (settings : Settings) :
    Finding.gist (u.lintFindings settings) = Finding.gist (s.lintFindings settings) := by
  have walked : Finding.gist (u.flow settings.loopsBranch).findings =
      Finding.gist (s.flow settings.loopsBranch).findings := by
    unfold Script.flow
    rw [same.functions]
    simp only [map_map, flatMap_map, Function.comp_def]
    exact Finding.gist_flatMap_congr fun f _ => f.gist_flow_respell .uncase _
  have deferred : (u.flow settings.loopsBranch).deferred =
      (s.flow settings.loopsBranch).deferred.map (·.respell .uncase) := by
    unfold Script.flow
    rw [same.functions]
    simp only [map_map, flatMap_map, Function.comp_def, map_flatMap, Func.deferredUses_flow_respell]
  have unknown (uses : List DeferredUse) :
      Finding.gist (Session.unknownUses settings u.ownScope (uses.map (·.respell .uncase))) =
        Finding.gist (Session.unknownUses settings s.ownScope uses) := by
    rw [Session.gist_unknownUses, Session.gist_unknownUses, filter_map, map_map]
    simp only [Function.comp_def, same.isKnown_respell]
    rfl
  unfold Script.lintFindings
  rw [Finding.gist_append, Finding.gist_append, walked, deferred, unknown]

theorem outline_lintScript (same : s.LosesCase u) (settings : Settings) :
    Diagnostic.outline (lintScript settings u) = Diagnostic.outline (lintScript settings s) := by
  rw [lintScript_eq, lintScript_eq, same.path, same.pkgPath]
  split
  · rfl
  · rw [Diagnostic.outline_sort Settings.file_of_report,
      Diagnostic.outline_sort Settings.file_of_report, Settings.outline_report,
      Settings.outline_report, same.gist_lintFindings]

end Script.LosesCase

/-- Two texts that are the same in small letters are both refused, at the same place, or both
accepted, and then they have the same diagnostics apart from names and their case. -/
theorem Script.outline_of_same_letters (settings : Settings) (path pkgPath : String)
    {source other : String}
    (same : source.toList.map Char.toLower = other.toList.map Char.toLower) :
    (∃ fault fault', Script.read source path pkgPath = .error fault ∧
      Script.read other path pkgPath = .error fault' ∧ fault'.location? = fault.location?) ∨
    ∃ s s', Script.read source path pkgPath = .ok s ∧ Script.read other path pkgPath = .ok s' ∧
      Diagnostic.outline (lintScript settings s') = Diagnostic.outline (lintScript settings s) := by
  have alike := Text.uncased_eq_of_small same
  cases read : Script.read source path pkgPath with
  | error fault =>
    obtain ⟨fault', refused, place⟩ := Script.read_error_of_uncased_eq alike read
    exact .inl ⟨fault, fault', rfl, refused, place⟩
  | ok s =>
    obtain ⟨s', u, accepted, loses, loses'⟩ := Script.read_ok_of_uncased_eq alike read
    refine .inr ⟨s, s', rfl, accepted, ?_⟩
    rw [← loses.outline_lintScript, loses'.outline_lintScript]

/-- A namespace, a label, a template and a narrowed variable, in two spellings. -/
theorem Script.outline_of_same_letters_mixedCase : let source := "Namespace App
Sub Main(Args)
Top:
X = Invalid
If x <> INVALID Then Print `${X}`
Goto top
End Sub
End Namespace"
    let other := "namespace APP
sub MAIN(args)
TOP:
x = invalid
if X <> invalid then print `${x}`
goto TOP
end sub
end namespace"
    source.toList.map Char.toLower = other.toList.map Char.toLower ∧
    ((∃ fault fault', Script.read source "a.brs" "" = .error fault ∧
      Script.read other "a.brs" "" = .error fault' ∧ fault'.location? = fault.location?) ∨
    ∃ s s', Script.read source "a.brs" "" = .ok s ∧ Script.read other "a.brs" "" = .ok s' ∧
      Diagnostic.outline (lintScript {} s') = Diagnostic.outline (lintScript {} s)) :=
  ⟨by decide, Script.outline_of_same_letters {} "a.brs" "" (by decide)⟩

end ChannelLint
