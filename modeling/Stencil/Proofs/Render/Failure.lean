import Stencil.Proofs.Render.Discipline

/-!
# The first failure

Rendering does not unwind: after a failure the rest of a program is still gone through, and the
helpers around the failure get it as a value, which they may drop, replace or ask for again.  All
the same the first failure recorded is what the run comes to, and nothing is called after it.
-/

namespace Stencil

section FirstFailure

variable (reg : Registry) (forms : Bytes → Backend) (bound : Option Nat) (fuel : Nat)
variable (form : Backend) (ops : List Op) (data : Value)

theorem logged_runAs :
    (reg.runAs forms bound fuel form ops data).2.Logged := by
  have hlinked := reg.disciplined_linkAs forms bound fuel
  exact (form.disciplined_render hlinked ops (Scope.root data)).logged {} (.going (by simp))

/-- Failures are sticky and first.  Behind a failure in the events of a run no helper and no partial
is called, nothing fails again, and every section returns that failure to its helper; the outcome is
that failure as it was recorded.  There are nodes if and only if nothing has failed. -/
theorem outcome_is_first_failure :
    (∀ before e after,
      (reg.runAs forms bound fuel form ops data).2.log.reverse = before ++ .failed e :: after →
        (∀ x ∈ after, ∃ part, x = .returned part (.error e)) ∧
        (∀ e', .failed e' ∉ before) ∧
        outcome (reg.runAs forms bound fuel form ops data) = .error e) ∧
      ((∃ nodes, outcome (reg.runAs forms bound fuel form ops data) = .ok nodes) ↔
        ∀ e, .failed e ∉ (reg.runAs forms bound fuel form ops data).2.log) := by
  have hlogged := logged_runAs reg forms bound fuel form ops data
  generalize reg.runAs forms bound fuel form ops data = result at hlogged
  refine ⟨?_, ?_, ?_⟩
  · intro before e after hevents
    have hlog : result.2.log = after.reverse ++ .failed e :: before.reverse := by
      have hreverse := congrArg List.reverse hevents
      simpa using hreverse
    obtain ⟨hfailure, hafter, hbefore⟩ := hlogged.failed_unique hlog
    refine ⟨fun x hx => hafter x (by simpa using hx), fun e' he' => hbefore e' (by simpa using he'),
      ?_⟩
    simp [outcome, hfailure]
  · rintro ⟨nodes, hnodes⟩ e he
    obtain ⟨after, before, hlog⟩ := List.append_of_mem he
    have hfailure := (hlogged.failed_unique hlog).1
    simp [outcome, hfailure] at hnodes
  · intro hnone
    cases hfailure : result.2.failure with
    | none =>
        exact ⟨result.1, by simp [outcome, hfailure]⟩
    | some e =>
        unfold Run.Logged at hlogged
        rw [hfailure] at hlogged
        exact absurd hlogged.failed_mem (hnone e)

end FirstFailure

/-- A helper that renders its body twice and shows nothing, whatever comes of it. -/
def deafHelper : Helper := fun _ s _ =>
  .render .body s.data s [] fun _ => .render .body s.data s [] fun _ => .done .null

/-- Two calls of such a helper around a call of a helper that is not there. -/
def deafSample : List Op :=
  let call : Op := .block (utf8 "deaf") [] [] [.block (utf8 "gone") [] [] [] none false] none false
  [call, call]

/-- The failure inside of the first call is what the sample comes to: it returns to the helper twice,
and the second call is not made. -/
theorem outcome_deafSample :
    let gone : RenderError := .unknownHelper (utf8 "gone")
    let reg : Registry := ⟨fun name => if name = utf8 "deaf" then some deafHelper else none,
      fun _ => none⟩
    let result := reg.runAs (fun _ => .steps) none 0 .steps deafSample .null
    result.2.log.reverse =
        [.helper (utf8 "deaf") {} (Scope.root .null), .failed gone,
          .returned .body (.error gone), .returned .body (.error gone)] ∧
      outcome result = .error gone := by
  intro gone reg result
  have hfirst := (outcome_is_first_failure reg (fun _ => .steps) none 0 .steps deafSample .null).1
    [.helper (utf8 "deaf") {} (Scope.root .null)] gone
    [.returned .body (.error gone), .returned .body (.error gone)] rfl
  exact ⟨rfl, hfirst.2.2⟩

end Stencil
