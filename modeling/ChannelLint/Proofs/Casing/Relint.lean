import ChannelLint.Proofs.Casing.Fixes

/-!
# Linting a fixed text again

A fixed text has no diagnostics about case, provided that in every function a name that is no
parameter is spelled alike wherever it is bound (`Script.clean_of_fixed`). Without that the fixes of
one pass may work against each other: a name is compared with the binding that was made last, and
that binding takes another spelling itself (`Script.not_clean_of_fixed_reassigned`).

The walk over a function of the fixed text is the walk over the function of the text, respelled by
what the fixed text has at the place of each name. So it is enough that a name and the spelling it
was compared with come out the same.
-/
namespace ChannelLint

open List Text

variable {name known i : Ident} {finding : Finding}

/-! ## What stands at a place -/

theorem lineStartsFrom_map_uncase (offset : Nat) (cs : List Char) :
    lineStartsFrom offset (cs.map uncase) = lineStartsFrom offset cs := by
  induction cs generalizing offset with
  | nil => rfl
  | cons c cs ih =>
    have feed : (uncase c == '\n') = (c == '\n') := uncase_beq (by decide) c
    simp only [map_cons, lineStartsFrom, feed, ih]

/-- Texts that differ in case alone have the same offsets. -/
theorem offsetIn_of_uncased_eq {source other : String}
    (same : uncased other = uncased source) : offsetIn other = offsetIn source := by
  have uncased (text : String) : offsetIn (uncased text) = offsetIn text := by
    funext p
    unfold offsetIn lineStarts
    rw [toList_uncased, lineStartsFrom_map_uncase, length_uncased]
  rw [← uncased other, same, uncased]

theorem textAt_empty (source : String) (p : Position) : textAt source ⟨p, p⟩ = "" := by
  unfold textAt
  rw [drop_eq_nil_of_le (length_take_le _ _)]

/-! ## The spelling in the fixed text -/

/-- The names that the body of a function binds. -/
def Func.bound (f : Func) : List Ident :=
  (eventsOf f.body.sites).filterMap fun
    | .bind name _ => some name
    | .read _ => none

/-- A name that is no parameter is spelled alike wherever the function binds it. -/
def Func.SpellsAlike (f : Func) : Prop :=
  ∀ i ∈ f.bound, ∀ j ∈ f.bound, i.key = j.key → f.given.find? i.key = none → i.text = j.text

instance (f : Func) : Decidable f.SpellsAlike :=
  inferInstanceAs (Decidable (∀ i ∈ f.bound, ∀ j ∈ f.bound, _ → _ → _))

/-- A name has one known spelling. -/
theorem Func.SpellsAlike.known_eq {f : Func} (alike : f.SpellsAlike) {other : Ident}
    (first : Known (eventsOf f.body.sites) f.given name known)
    (second : Known (eventsOf f.body.sites) f.given name other) : known.text = other.text := by
  have binder {i : Ident} (loose : Loose (eventsOf f.body.sites) f.given name.key i) :
      i ∈ f.bound := by
    obtain ⟨role, member⟩ := loose.bound
    exact mem_filterMap.2 ⟨_, member, rfl⟩
  rcases first.source, second.source with ⟨given | loose, given' | loose'⟩
  · rw [Option.some.inj (given.symm.trans given')]
  · rw [loose'.free] at given
    cases given
  · rw [loose.free] at given'
    cases given'
  · exact alike _ (binder loose) _ (binder loose') (loose.key_eq.trans loose'.key_eq.symm)
      (loose.key_eq ▸ loose.free)

/-- Fixes at one place write the same. -/
def Script.FixesAgree (settings : Settings) (s : Script) : Prop :=
  ∀ e ∈ s.fixes settings, ∀ e' ∈ s.fixes settings, e.range = e'.range → e.text = e'.text

section

variable {settings : Settings} {s : Script} {names : List Ident} {f : Func} {e : TextEdit}

/-- A fix at the place of a name writes a spelling that is known for that name. -/
theorem Script.Named.known_of_fix (named : s.Named s.source names) (isFunction : f ∈ s.functions)
    (isName : i ∈ f.names) (member : e ∈ s.fixes settings) (here : e.range = i.range) :
    ∃ known, Known (eventsOf f.body.sites) f.given i known ∧ e.text = known.text := by
  obtain ⟨g, isFunction', written, found⟩ := exists_mismatch_of_mem_fixes member
  obtain ⟨name, known, isKnown, same⟩ := Func.known_of_mismatch found rfl
  obtain ⟨issue, there⟩ := Finding.mk.inj same
  obtain ⟨-, text⟩ := Issue.caseMismatch.inj issue
  have isName' : name ∈ g.names := mem_append_right _ isKnown.used
  have sameRange : name.range = i.range := there.symm.trans here
  obtain ⟨params, body, isMethod⟩ := Func.parts_of_unplaced
    (named.distinct g isFunction' f isFunction name isName' i isName sameRange)
  have given : g.given = f.given := by
    simp only [Func.given, Walk.paramBindings, params, isMethod]
  obtain rfl := named.eq_of_range (named.inner g isFunction' name isName')
    (named.inner f isFunction i isName) sameRange
  rw [body, given] at isKnown
  exact ⟨known, isKnown, text⟩

theorem Script.fixesAgree (named : s.Named s.source names)
    (alike : ∀ f ∈ s.functions, f.SpellsAlike) : s.FixesAgree settings := by
  intro e member e' member' same
  obtain ⟨-, f, isFunction, name, used, here⟩ := recases_of_mem_fixes named member
  have isName : name ∈ f.names := mem_append_right _ used
  obtain ⟨known, isKnown, text⟩ := named.known_of_fix isFunction isName member here
  obtain ⟨known', isKnown', text'⟩ :=
    named.known_of_fix isFunction isName member' (same.symm.trans here)
  rw [text, text', (alike f isFunction).known_eq isKnown isKnown']

/-- A name that is not fixed stays as it is. -/
theorem Script.Named.textAt_of_kept (named : s.Named s.source names)
    (isName : i ∈ names) (kept : ∀ e ∈ s.fixes settings, e.range ≠ i.range) :
    textAt (s.fixed settings) i.range = i.text := by
  rw [← (named.stand i isName).text]
  unfold textAt
  rw [offsetIn_of_uncased_eq (Script.uncased_fixed named)]
  refine congrArg String.ofList (ext_getElem? fun k => ?_)
  rw [getElem?_slice, getElem?_slice]
  split
  · next inside =>
    refine Script.getElem?_fixed named fun e isFix within => ?_
    obtain ⟨name, isName', here⟩ := named.place_of_fix isFix
    rw [here] at within
    rcases named.apart isName' isName with rfl | disjoint
    · exact kept e isFix here
    · omega
  · rfl

namespace Script.FixesAgree

variable (agree : s.FixesAgree settings) (named : s.Named s.source names)

include agree named

/-- Where a fix reaches, its text stands. -/
theorem getElem?_fixed (isFix : e ∈ s.fixes settings) {k : Nat}
    (low : offsetIn s.source e.range.start ≤ k) (high : k < offsetIn s.source e.range.stop) :
    (s.fixed settings).toList[k]? = e.text.toList[k - offsetIn s.source e.range.start]? := by
  obtain ⟨kept, reached, recase⟩ := Script.exists_kept settings named
  have apart : ∀ a ∈ splices s.source (s.fixes settings),
      ∀ b ∈ splices s.source (s.fixes settings), a = b ∨ a.Compatible b := by
    refine forall_mem_map.2 fun e isFix => forall_mem_map.2 fun e' isFix' => ?_
    obtain ⟨name, isName, here⟩ := named.place_of_fix isFix
    obtain ⟨name', isName', here'⟩ := named.place_of_fix isFix'
    rcases named.apart isName isName' with rfl | disjoint
    · have sameRange : e.range = e'.range := here.trans here'.symm
      refine .inl ?_
      unfold TextEdit.splice
      rw [sameRange, agree e isFix e' isFix' sameRange]
    · rw [← here, ← here'] at disjoint
      exact .inr disjoint
  have isKept := reached.mem_kept apart (mem_map_of_mem isFix)
  rw [Script.fixed, String.toList_ofList, reached.text, getElem?_spliced_of_mem recase
    reached.ordered (fun _ _ => Nat.zero_le _) isKept (by rwa [Nat.zero_add]) (by rwa [Nat.zero_add]),
    Nat.zero_add]
  rfl

theorem textAt_of_fix (isFix : e ∈ s.fixes settings) :
    textAt (s.fixed settings) e.range = e.text := by
  obtain ⟨recases, -⟩ := recases_of_mem_fixes named isFix
  have length := recases.length
  unfold textAt
  rw [offsetIn_of_uncased_eq (Script.uncased_fixed named)]
  refine (congrArg String.ofList (ext_getElem? fun k => ?_)).trans String.ofList_toList
  rw [getElem?_slice]
  split
  · next inside =>
    rw [agree.getElem?_fixed named isFix (Nat.le_add_right _ k) inside, Nat.add_sub_cancel_left]
  · next outside =>
    refine (getElem?_eq_none ?_).symm
    change e.text.toList.length = offsetIn _ _ - offsetIn _ _ at length
    omega

end Script.FixesAgree

/-- If names in the wrong case are reported at all, every name that was compared stands in the fixed
text with the spelling that it was compared with. -/
theorem Script.textAt_of_compared (named : s.Named s.source names)
    (alike : ∀ f ∈ s.functions, f.SpellsAlike) (watched : settings.isIgnored s.path = false)
    {severity : Severity} (on : settings.severity? .caseSensitivity = some severity)
    (isFunction : f ∈ s.functions) (isKnown : Known (eventsOf f.body.sites) f.given name known)
    (reported : ∀ finding ∈ name.mismatch known, finding ∈ (f.flow settings.loopsBranch).findings) :
    textAt (s.fixed settings) name.range = known.text := by
  have agree : s.FixesAgree settings := Script.fixesAgree named alike
  have isName : name ∈ f.names := mem_append_right _ isKnown.used
  by_cases changed : ∃ e ∈ s.fixes settings, e.range = name.range
  · obtain ⟨e, isFix, here⟩ := changed
    obtain ⟨other, isKnown', text⟩ := named.known_of_fix isFunction isName isFix here
    rw [← here, agree.textAt_of_fix named isFix, text,
      (alike f isFunction).known_eq isKnown' isKnown]
  · have kept : ∀ e ∈ s.fixes settings, e.range ≠ name.range :=
      fun e isFix here => changed ⟨e, isFix, here⟩
    rw [named.textAt_of_kept (named.inner f isFunction name isName) kept]
    by_contra differs
    have found := reported ⟨.caseMismatch name.text known.text, name.range⟩ (by
      unfold Ident.mismatch
      rw [if_neg (Ne.symm differs)]
      exact mem_singleton_self _)
    exact changed ⟨_, mem_fixes_of_mismatch on watched isFunction found, rfl⟩

end

/-- Every name is spelled as it stands in a text, if the text has it at its place. -/
def Respelling.asIn (text : String) : Respelling where
  name i :=
    if uncased (textAt text i.range) = uncased i.text then ⟨textAt text i.range, i.range⟩
    else ⟨uncased i.text, i.range⟩
  text := uncased
  range_name i := by split <;> rfl
  lower_name i := by
    split
    · next same => exact lower_eq_of_uncased_eq same
    · exact lower_uncased i.text
  lower_text := lower_uncased
  given_m := by
    rw [show textAt text (⟨"m", .empty⟩ : Ident).range = "" from textAt_empty text .zero]
    decide
  given_super := by
    rw [show textAt text (⟨"super", .empty⟩ : Ident).range = "" from textAt_empty text .zero]
    decide

namespace Respelling

variable {text : String}

theorem asIn_name (same : uncased (textAt text i.range) = uncased i.text) :
    (asIn text).name i = ⟨textAt text i.range, i.range⟩ := by
  simp only [asIn, same, if_true]

theorem asIn_of_standsIn (stands : StandsIn text i) : (asIn text).name i = i := by
  rw [asIn_name (congrArg uncased stands.text), stands.text]

theorem asIn_after_uncase : (asIn text).after uncase = asIn text := by
  ext i <;> simp [after, asIn, uncase]

end Respelling

/-! ## Linting again -/

/-- A walk that reports the case of a name does so too if a respelling keeps the names. -/
theorem Func.mem_flow_respell_of_kept {f : Func} {ρ : Respelling} {loopsBranch : Bool}
    (kept : ∀ i ∈ f.names, ρ.name i = i) (found : finding ∈ (f.flow loopsBranch).findings)
    (mismatch : finding.issue.code = .caseMismatch) :
    finding ∈ ((f.respell ρ).flow loopsBranch).findings := by
  obtain ⟨entries, fit, -, reported, respelled⟩ := (f.flow_respell ρ loopsBranch).trace
  rw [reported] at found
  obtain ⟨e, listed, inEntry⟩ := mem_flatMap.1 found
  rw [respelled]
  refine mem_flatMap.2 ⟨e, listed, ?_⟩
  cases e with
  | note other =>
    obtain rfl := mem_singleton.1 inEntry
    exact absurd mismatch (fit _ listed).1
  | compare name known =>
    have isKnown : Known (eventsOf f.body.sites) f.given name known := (fit _ listed).known
    have keptName : ρ.name name = name := kept name (mem_append_right _ isKnown.used)
    have keptKnown : ρ.name known = known := by
      rcases isKnown.source with given | loose
      · rcases Func.mem_given given with isParam | rfl | rfl
        · exact kept known (mem_append_left _ isParam)
        · exact ρ.given_m
        · exact ρ.given_super
      · exact kept known (mem_append_right _ loose.used)
    rw [TraceEntry.respell, keptName, keptKnown]
    exact inEntry

/-- Scripts that are the same without case have the same functions once every name is spelled as it
stands in a text. -/
theorem Script.LosesCase.exists_respell_eq {s s' u : Script} (loses : s.LosesCase u)
    (loses' : s'.LosesCase u) (text : String) {f' : Func} (isFunction : f' ∈ s'.functions) :
    ∃ f ∈ s.functions, f.respell (.asIn text) = f'.respell (.asIn text) := by
  have uncased : f'.respell .uncase ∈ s.functions.map (·.respell .uncase) := by
    rw [← loses.functions, loses'.functions]
    exact mem_map_of_mem isFunction
  obtain ⟨f, isFunction, same⟩ := mem_map.1 uncased
  refine ⟨f, isFunction, ?_⟩
  rw [← Respelling.asIn_after_uncase, ← Func.respell_respell, ← Func.respell_respell, same]

section

variable {settings : Settings} {s : Script} {names : List Ident} {f : Func} {severity : Severity}
  (named : s.Named s.source names) (alike : ∀ f ∈ s.functions, f.SpellsAlike)
  (watched : settings.isIgnored s.path = false)
  (on : settings.severity? .caseSensitivity = some severity) (isFunction : f ∈ s.functions)

include named alike watched on isFunction

/-- The spelling that a name was compared with is itself kept. -/
theorem Script.asIn_fixed_known (isKnown : Known (eventsOf f.body.sites) f.given name known) :
    (Respelling.asIn (s.fixed settings)).name known = known := by
  have keeps (same : textAt (s.fixed settings) known.range = known.text) :
      (Respelling.asIn (s.fixed settings)).name known = known := by
    rw [Respelling.asIn_name (congrArg uncased same), same]
  rcases isKnown.source with given | loose
  · rcases Func.mem_given given with isParam | rfl | rfl
    · -- A parameter is no use of a name, so there is no fix at its place.
      have isName : known ∈ f.names := mem_append_left _ isParam
      refine keeps (named.textAt_of_kept (named.inner f isFunction known isName)
        fun e isFix here => ?_)
      obtain ⟨other, isKnown', -⟩ := named.known_of_fix isFunction isName isFix here
      exact named.params f isFunction known isParam known isKnown'.used rfl
    · exact Respelling.given_m _
    · exact Respelling.given_super _
  · have itself : Known (eventsOf f.body.sites) f.given known known :=
      ⟨loose.used, .inr (loose.key_eq.symm ▸ loose)⟩
    refine keeps (Script.textAt_of_compared named alike watched on isFunction itself ?_)
    intro finding compared
    rw [Ident.mismatch, if_pos rfl] at compared
    exact absurd compared not_mem_nil

/-- With its names spelled as in the fixed text, a function has no names in the wrong case. -/
theorem Script.code_ne_of_asIn_fixed
    (found : finding ∈ ((f.respell (.asIn (s.fixed settings))).flow settings.loopsBranch).findings) :
    finding.issue.code ≠ .caseMismatch := by
  obtain ⟨entries, fit, -, reported, respelled⟩ :=
    (f.flow_respell (.asIn (s.fixed settings)) settings.loopsBranch).trace
  rw [respelled] at found
  obtain ⟨e, listed, inEntry⟩ := mem_flatMap.1 found
  cases e with
  | note other =>
    obtain rfl := mem_singleton.1 inEntry
    rw [Finding.code_respell]
    exact (fit _ listed).1
  | compare name known =>
    have isKnown : Known (eventsOf f.body.sites) f.given name known := (fit _ listed).known
    have text : textAt (s.fixed settings) name.range = known.text := by
      refine Script.textAt_of_compared named alike watched on isFunction isKnown ?_
      intro finding compared
      rw [reported]
      exact mem_flatMap.2 ⟨_, listed, compared⟩
    have letters : uncased (textAt (s.fixed settings) name.range) =
        uncased name.text := by
      rw [text, isKnown.uncased_eq named isFunction]
    rw [TraceEntry.respell, Script.asIn_fixed_known named alike watched on isFunction isKnown,
      Respelling.asIn_name letters, text, TraceEntry.findings, Ident.mismatch, if_pos rfl]
      at inEntry
    exact absurd inEntry not_mem_nil

end

/-- A text that differs in case alone starts with a byte order mark if the text does. -/
theorem head?_ne_mark_of_uncased_eq {source other : String} (same : uncased other = uncased source)
    (unmarked : source.toList.head? ≠ some '\ufeff') : other.toList.head? ≠ some '\ufeff' := by
  intro marked
  have heads := congrArg (fun t => t.toList.head?) same
  simp only [toList_uncased, head?_map, marked, Option.map_some] at heads
  obtain ⟨c, first, mark⟩ := Option.map_eq_some_iff.1 heads.symm
  rw [show uncase '\ufeff' = '\ufeff' by decide] at mark
  rw [(uncase_eq_iff (by decide) c).1 mark] at first
  exact unmarked first

/-- Linting a fixed text reports no names in the wrong case, if in every function a name that is no
parameter is spelled alike wherever it is bound. -/
theorem Script.clean_of_fixed (settings : Settings) {source path pkgPath : String} {s : Script}
    (read : Script.read source path pkgPath = .ok s)
    (unmarked : source.toList.head? ≠ some '\ufeff') (alike : ∀ f ∈ s.functions, f.SpellsAlike) :
    ∃ s', Script.read (s.fixed settings) path pkgPath = .ok s' ∧
      ∀ d ∈ lintScript settings s', d.issue.code ≠ .caseMismatch := by
  obtain ⟨names, named⟩ := Script.exists_named read unmarked
  obtain rfl := Script.source_of_read read
  have recased : uncased (s.fixed settings) = uncased s.source :=
    Script.uncased_fixed named
  obtain ⟨s', u, read', loses, loses'⟩ := Script.read_ok_of_uncased_eq recased.symm read
  obtain ⟨names', named'⟩ :=
    Script.exists_named read' (head?_ne_mark_of_uncased_eq recased unmarked)
  refine ⟨s', read', fun d diagnosed mismatch => ?_⟩
  obtain ⟨watched, on, f', isFunction', found⟩ := exists_finding_of_mismatch diagnosed mismatch
  rw [show s'.path = s.path from loses'.path.symm.trans loses.path] at watched
  obtain ⟨f, isFunction, same⟩ := loses.exists_respell_eq loses' (s.fixed settings) isFunction'
  have kept : ∀ i ∈ f'.names, (Respelling.asIn (s.fixed settings)).name i = i := fun i isName =>
    Respelling.asIn_of_standsIn (named'.stand i (named'.inner f' isFunction' i isName))
  have respelled := Func.mem_flow_respell_of_kept kept found mismatch
  rw [← same] at respelled
  exact Script.code_ne_of_asIn_fixed named alike watched on isFunction respelled mismatch

theorem Script.clean_of_fixed_mixedCase : mixedCase.toList.head? ≠ some '\ufeff' ∧
    ∃ s, Script.read mixedCase "a.brs" "" = .ok s ∧ (∀ f ∈ s.functions, f.SpellsAlike) ∧
    ∃ s', Script.read (s.fixed {}) "a.brs" "" = .ok s' ∧
      ∀ d ∈ lintScript {} s', d.issue.code ≠ .caseMismatch := by
  have unmarked : mixedCase.toList.head? ≠ some '\ufeff' := by decide +kernel
  have spelled : (Script.read mixedCase "a.brs" "").toOption.map
      (fun s => s.functions.all fun f => decide f.SpellsAlike) = some true := by
    decide +kernel
  obtain ⟨s, read, all⟩ := exists_ok_of_map_toOption spelled
  have alike : ∀ f ∈ s.functions, f.SpellsAlike := fun f isFunction =>
    of_decide_eq_true (all_eq_true.1 all f isFunction)
  exact ⟨unmarked, s, read, alike, Script.clean_of_fixed {} read unmarked alike⟩

/-- A name that is bound twice, in different case, and then read. -/
def reassigned : String :=
  "sub s()\n  x = 1\n  X = 2\n  print x\nend sub"

def reassignedFixed : String :=
  "sub s()\n  x = 1\n  x = 2\n  print X\nend sub"

/-- The second binding gets the spelling of the first one, and the read gets the spelling that the
second binding had before. -/
theorem Script.not_clean_of_fixed_reassigned : reassigned.toList.head? ≠ some '\ufeff' ∧
    ∃ s, Script.read reassigned "a.brs" "" = .ok s ∧ s.fixed {} = reassignedFixed ∧
    ∃ s', Script.read (s.fixed {}) "a.brs" "" = .ok s' ∧
      ∃ d ∈ lintScript {} s', d.issue.code = .caseMismatch := by
  have watched (s : Script) :
      lintScript {} s = Diagnostic.sort (Settings.report {} s.pkgPath (s.lintFindings {})) := by
    rw [lintScript_eq]
    exact if_neg Bool.false_ne_true
  have found : (Script.read reassigned "a.brs" "").toOption.map
      (fun s => Settings.report {} s.pkgPath (s.lintFindings {})) =
        some [⟨.warn, .caseMismatch "X" "x", ⟨⟨2, 2⟩, ⟨2, 3⟩⟩, "a.brs"⟩,
          ⟨.warn, .caseMismatch "x" "X", ⟨⟨3, 8⟩, ⟨3, 9⟩⟩, "a.brs"⟩] := by
    decide +kernel
  have foundAgain : (Script.read reassignedFixed "a.brs" "").toOption.map
      (fun s => Settings.report {} s.pkgPath (s.lintFindings {})) =
        some [⟨.warn, .caseMismatch "X" "x", ⟨⟨3, 8⟩, ⟨3, 9⟩⟩, "a.brs"⟩] := by
    decide +kernel
  obtain ⟨s, read, reports⟩ := exists_ok_of_map_toOption found
  obtain ⟨s', read', reports'⟩ := exists_ok_of_map_toOption foundAgain
  have fixes : s.fixes {} =
      [⟨⟨⟨2, 2⟩, ⟨2, 3⟩⟩, "x"⟩, ⟨⟨⟨3, 8⟩, ⟨3, 9⟩⟩, "X"⟩] := by
    rw [Script.fixes, watched, reports, Diagnostic.sort, mergeSort_of_pairwise (by decide +kernel)]
    rfl
  have sorted : (splices reassigned [⟨⟨⟨2, 2⟩, ⟨2, 3⟩⟩, "x"⟩, ⟨⟨⟨3, 8⟩, ⟨3, 9⟩⟩, "X"⟩]).mergeSort
      Splice.follows = [⟨32, 33, "X"⟩, ⟨18, 19, "x"⟩] := by
    cbv
  have fixed : s.fixed {} = reassignedFixed := by
    rw [Script.fixed, fixes, Script.source_of_read read, applyEdits, sorted]
    decide +kernel
  rw [← fixed] at read'
  refine ⟨by decide +kernel, s, read, fixed, s', read',
    ⟨.warn, .caseMismatch "X" "x", ⟨⟨3, 8⟩, ⟨3, 9⟩⟩, "a.brs"⟩, ?_, rfl⟩
  rw [watched, reports']
  exact mem_mergeSort.2 (mem_singleton_self _)

end ChannelLint
