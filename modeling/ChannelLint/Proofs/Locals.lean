import ChannelLint.Proofs.Casing.Traces

/-!
# What the frames of a walk hold

Along the whole walk over a function, no frame holds a binding for a name that the function has from
the start. So nothing is ever said about such a name but how it is written.
-/
namespace ChannelLint

namespace Func

variable {f : Func} {key : String}

theorem not_gives_of_free (free : f.given.find? key = none) : ¬ f.Gives key := by
  rw [← contains_paramBindings, ← OrderedMap.contains_map _ Binding.ident]
  simp [OrderedMap.contains, show OrderedMap.find? (OrderedMap.map _ _) key = none from free]

/-- At every point of a walk, what its frames hold is bound under its own name, is no parameter, and
is a caught error in the handler that catches it only. So no report about the assignments of a
variable and no read without a binding concerns a parameter. -/
theorem parameters_never_tracked (f : Func) (loopsBranch : Bool) :
    (∀ w, f.Reaches loopsBranch w → ∀ frame, (frame ∈ w.stack ∨ ∃ c ∈ w.closings, c.closed = frame) →
      ∀ key b, (key, b) ∈ frame.locals.entries →
        ¬ f.Gives key ∧ Text.lower b.name = key ∧ (b.role = .caughtError →
          ∃ c, frame.site = .handler c ∧ c.caught = some ⟨b.name, b.range⟩)) ∧
    (∀ finding ∈ (f.flow loopsBranch).findings, ∀ name, finding.issue.blamed? = some name →
      ¬ f.Gives (Text.lower name)) ∧
    ∀ use ∈ (f.flow loopsBranch).freeUses, ¬ f.Gives (Text.lower use.name) := by
  obtain ⟨uses, entries, fit, -, reported, -⟩ := f.flow_respell .uncase loopsBranch
  refine ⟨fun w reaches frame held key b member => ?_, fun finding found name blamed => ?_,
    fun use member => not_gives_of_free (uses use member).2⟩
  · obtain ⟨visited, inOrder⟩ := reaches.isTidy
    have ordered : frame.InOrder (.all f.given) visited := by
      rcases held with isOpen | ⟨c, listed, rfl⟩
      · exact inOrder.frames frame isOpen
      · exact inOrder.closed c listed
    obtain ⟨free, named, -, -, caught⟩ := ordered.filed.stored _ member
    refine ⟨not_gives_of_free free, named, fun role => ?_⟩
    have own := caught role
    unfold Site.caught? at own
    split at own
    · next c site => exact ⟨c, site, own⟩
    · cases own
  · rw [reported] at found
    obtain ⟨e, listed, inEntry⟩ := List.mem_flatMap.1 found
    cases e with
    | note other =>
      obtain rfl := List.mem_singleton.1 inEntry
      exact not_gives_of_free ((fit _ listed).2 name blamed)
    | compare use known again =>
      simp only [TraceEntry.findings, Ident.mismatch] at inEntry
      split at inEntry
      · cases inEntry
      · obtain rfl := List.mem_singleton.1 inEntry
        cases blamed

end Func

end ChannelLint
