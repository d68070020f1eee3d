import Mathlib.Tactic

/-!
# Machines and their answers

A machine takes one input after the other and answers each.  What a step does to
a property of the state is told once; the rules here carry it to runs.
-/

namespace Machine

variable {S T I O : Type*}

/-- The state after the inputs, and the answers to them. -/
def run (step : S → I → S × O) (s : S) : List I → S × List O
  | [] => (s, [])
  | input :: rest =>
      let (next, answer) := step s input
      let (last, answers) := run step next rest
      (last, answer :: answers)

/-- Every input of the run is allowed in the state that it meets. -/
def Along (step : S → I → S × O) (allowed : S → I → Prop) : S → List I → Prop
  | _, [] => True
  | s, input :: rest =>
      allowed s input ∧ Along step allowed (step s input).1 rest

variable {step : S → I → S × O} {allowed : S → I → Prop}

theorem Along.and {also : I → Prop} {s : S} {inputs : List I}
    (halong : Along step allowed s inputs) (halso : ∀ input ∈ inputs, also input) :
    Along step (fun s input => allowed s input ∧ also input) s inputs := by
  induction inputs generalizing s with
  | nil => trivial
  | cons input rest ih =>
      obtain ⟨hinput, hrest⟩ := halong
      obtain ⟨hhead, htail⟩ := List.forall_mem_cons.mp halso
      exact ⟨⟨hinput, hhead⟩, ih hrest htail⟩

/-- Machines that stay alike give the same answers. -/
theorem run_alike {other : T → I → T × O} (alike : S → T → Prop)
    (hstep : ∀ s t input, alike s t → allowed s input →
      (step s input).2 = (other t input).2 ∧
        alike (step s input).1 (other t input).1)
    {s : S} {t : T} {inputs : List I} (hst : alike s t)
    (halong : Along step allowed s inputs) :
    (run step s inputs).2 = (run other t inputs).2 ∧
      alike (run step s inputs).1 (run other t inputs).1 := by
  induction inputs generalizing s t with
  | nil => exact ⟨rfl, hst⟩
  | cons input rest ih =>
      obtain ⟨hinput, hrest⟩ := halong
      obtain ⟨hanswer, hnext⟩ := hstep s t input hst hinput
      obtain ⟨hanswers, hlast⟩ := ih hnext hrest
      refine ⟨?_, hlast⟩
      simp only [run, hanswer, hanswers]

end Machine
