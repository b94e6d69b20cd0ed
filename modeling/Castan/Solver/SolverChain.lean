/-
# The solver chain

`constructSolverChain` puts the independent solver over the query cache, which then sees only the
required constraints.
-/
import Castan.Solver.Caching
import Castan.Solver.Independent

namespace Castan.CachingEnv

open IndependentSolver List Set

/-- The call that `IndependentSolver` passes on. -/
def Call.passOn : Call → Call
  | truth q => truth (required q)
  | validity q => validity (required q)

lemma Call.correct_of_passOn {c : Call} {r : Outcome Answer} {σ : Valuation}
    (ht : c.query.WellTyped) (hσ : c.query.MetBy σ)
    (hrange : ∀ e ∈ c.query.constraints, e.InRange σ)
    (hr : c.passOn.Correct univ r) : c.Correct univ r := by
  have hiff := forall_required_iff ht hσ hrange
  have himp := hiff fun v => v = APInt.bool true
  have href := hiff fun v => ¬ v = APInt.bool true
  cases c with
  | truth q => exact hr.imp fun _ h => ⟨h.1, h.2.trans himp⟩
  | validity q =>
    obtain ⟨result, hr, hv⟩ := hr
    refine ⟨result, hr, ?_⟩
    cases result with
    | isTrue => exact himp.1 hv
    | isFalse => exact href.1 hv
    | unknown => exact hv.imp himp.not.1 href.not.1

/-- Over an exact solver, an empty cache asked through `IndependentSolver` answers every sequence
of full queries rightly. -/
theorem run_passOn_exact (env : CachingEnv) (henv : env.Exact univ) (calls : List Call)
    (h : ∀ c ∈ calls, env.Admissible univ (required c.query) ∧ c.query.WellTyped ∧
      ∃ σ, c.query.MetBy σ ∧ ∀ e ∈ c.query.constraints, e.InRange σ) :
    Forall₂ (Call.Correct univ) calls (env.run [] (calls.map Call.passOn)) := by
  have hpass : ∀ c ∈ calls.map Call.passOn, env.Admissible univ c.query :=
    forall_mem_map.2 fun c hc => by cases c <;> exact (h _ hc).1
  have hrun := forall₂_map_left_iff.1 (run_answersRight henv (forall_mem_nil _) hpass)
  refine ((forall₂_and_left _ _).2 ⟨h, hrun⟩).imp ?_
  rintro c r ⟨⟨-, ht, σ, hσ, hrange⟩, hr⟩
  exact Call.correct_of_passOn ht hσ hrange hr

/-- The second call completes the entry of the first one, and the third one is answered from it. -/
theorem run_passOn_exact_twoArrays : Forall₂ (Call.Correct univ)
    [.truth twoArrays, .validity twoArrays, .truth twoArrays]
    (run ⟨⟨true, true⟩, fun _ _ => true, .preferring fun _ _ => 0⟩ []
      [.truth (required twoArrays), .validity (required twoArrays),
        .truth (required twoArrays)]) := by
  refine run_passOn_exact _ (preferring_exact _ _ _)
    [.truth twoArrays, .validity twoArrays, .truth twoArrays] fun c hc => ?_
  have hquery : c.query = twoArrays := by
    simp only [mem_cons, not_mem_nil, or_false] at hc
    rcases hc with rfl | rfl | rfl <;> rfl
  rw [hquery]
  exact ⟨⟨⟨_, trivial, required_metBy twoArrays_met⟩, byteBelow_typed 1 20, rfl,
    fun _ _ _ _ => byteBelow_inRange 1 20 _⟩, twoArrays_wellTyped, _, twoArrays_met,
    by simp [twoArrays, byteBelow_inRange]⟩

end Castan.CachingEnv
