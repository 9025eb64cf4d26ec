import Mathlib.Logic.Relation

set_option autoImplicit false

namespace AvaHotstuff.Runs

universe u v
variable {σ : Type u} {ι : Type v}

/-- The states reached from `init` by inputs that `ok` admits in the state they meet. -/
inductive Reach (ok : σ → ι → Prop) (step : σ → ι → σ) (init : σ) : σ → Prop where
  | init : Reach ok step init init
  | step {s : σ} {i : ι} (tail : Reach ok step init s) (hi : ok s i) :
      Reach ok step init (step s i)

variable {ok ok' : σ → ι → Prop} {step : σ → ι → σ} {init s t : σ}

theorem Reach.invariant (I : σ → Prop) (h : Reach ok step init s) (hinit : I init)
    (hstep : ∀ s i, I s → ok s i → I (step s i)) : I s := by
  induction h with
  | init => exact hinit
  | step _ hi ih => exact hstep _ _ ih hi

theorem Reach.mono (h : Reach ok step init s) (hok : ∀ s i, ok s i → ok' s i) :
    Reach ok' step init s := by
  induction h with
  | init => exact .init
  | step _ hi ih => exact .step ih (hok _ _ hi)

theorem Reach.trans (h : Reach ok step init s) (h' : Reach ok step s t) :
    Reach ok step init t := by
  induction h' with
  | init => exact h
  | step _ hi ih => exact .step ih hi

def run (step : σ → ι → σ) (s : σ) (is : List ι) : σ := is.foldl step s

def Admitted (ok : σ → ι → Prop) (step : σ → ι → σ) : σ → List ι → Prop
  | _, [] => True
  | s, i :: is => ok s i ∧ Admitted ok step (step s i) is

instance Admitted.decidable [∀ s i, Decidable (ok s i)] :
    (s : σ) → (is : List ι) → Decidable (Admitted ok step s is)
  | _, [] => inferInstanceAs (Decidable True)
  | s, i :: is =>
    have : Decidable (Admitted ok step (step s i) is) := Admitted.decidable (step s i) is
    inferInstanceAs (Decidable (ok s i ∧ Admitted ok step (step s i) is))

theorem reach_run (is : List ι) (h : Reach ok step init s) (ha : Admitted ok step s is) :
    Reach ok step init (run step s is) := by
  induction is generalizing s with
  | nil => exact h
  | cons i is ih => exact ih (.step h ha.1) ha.2

theorem admitted_of_mem (is : List ι) (h : ∀ i ∈ is, ∀ s, ok s i) : Admitted ok step s is := by
  induction is generalizing s with
  | nil => trivial
  | cons i is ih =>
    exact ⟨h i (List.mem_cons_self ..) s, ih fun j hj => h j (List.mem_cons_of_mem _ hj)⟩

theorem admitted_append (is js : List ι) (h : Admitted ok step s is)
    (h' : Admitted ok step (run step s is) js) : Admitted ok step s (is ++ js) := by
  induction is generalizing s with
  | nil => exact h'
  | cons i is ih => exact ⟨h.1, ih h.2 h'⟩

theorem admitted_and (is : List ι) (h : Admitted ok step s is) (h' : Admitted ok' step s is) :
    Admitted (fun s i => ok s i ∧ ok' s i) step s is := by
  induction is generalizing s with
  | nil => trivial
  | cons i is ih => exact ⟨⟨h.1, h'.1⟩, ih h.2 h'.2⟩

end AvaHotstuff.Runs
