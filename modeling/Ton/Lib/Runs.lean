import Ton.Lib.Ends
import Mathlib
/-!
# Runs of a machine

The states that a machine with steps that may fail reaches, where each step is
taken under a condition on the state and the action.
-/

namespace Result

variable {ε σ α : Type}

inductive Reach (step : σ → α → Except ε σ) (may : σ → α → Prop) (start : σ → Prop) : σ → Prop
  | start {s : σ} (hs : start s) : Reach step may start s
  | step {s s' : σ} {a : α} (hs : Reach step may start s) (ha : may s a) (h : step s a = .ok s') : Reach step may start s'

namespace Reach

variable {step : σ → α → Except ε σ} {may may' : σ → α → Prop} {start : σ → Prop} {s : σ}

/-- What every step under the condition keeps holds in every state reached. -/
theorem inv {I : σ → Prop} (hstart : ∀ s, start s → I s) (hstep : ∀ s a s', I s → may s a → step s a = .ok s' → I s') (h : Reach step may start s) :
    I s := by
  induction h with
  | start hs => exact hstart _ hs
  | step _ ha h ih => exact hstep _ _ _ ih ha h

/-- With the rule for how a step ends, from any state that keeps the invariant. -/
theorem inv_of_ends {I : σ → Prop} (bad : σ → α → ε → Prop) (hstart : ∀ s, start s → I s)
    (hstep : ∀ s a, I s → may s a → Ends (bad s a) (step s a) I) (h : Reach step may start s) : I s :=
  h.inv hstart fun s a _ hs ha hs' => (hstep s a hs ha).of_ok hs'

theorem mono (hmay : ∀ s a, may s a → may' s a) (h : Reach step may start s) : Reach step may' start s := by
  induction h with
  | start hs => exact .start hs
  | step _ ha h ih => exact .step ih (hmay _ _ ha) h

theorem foldlM {l : List α} {s' : σ} (h : Reach step may start s) (hmay : ∀ s a, a ∈ l → may s a) (hl : l.foldlM step s = .ok s') :
    Reach step may start s' := by
  induction l generalizing s with
  | nil =>
    cases hl
    exact h
  | cons a l ih =>
    rw [List.foldlM_cons, bind_ok] at hl
    obtain ⟨t, ht, hl⟩ := hl
    exact ih (.step h (hmay s a (List.mem_cons_self ..)) ht) (fun s a ha => hmay s a (List.mem_cons_of_mem _ ha)) hl

end Reach

end Result
