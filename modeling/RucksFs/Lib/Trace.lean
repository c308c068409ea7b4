import Mathlib.Init

/-!
# Runs of a deterministic system

`Trace step ok s₀ es s`: serving the requests of `es` one after the other from `s₀` gave the
recorded answers and ended in `s`, and every request was admitted by `ok`, which sees the
history, the state before the request and the request.

* `Trace.invariant` — what holds at the start and is kept by every admitted request holds after
  every run.
-/

set_option autoImplicit false

variable {σ ι ρ : Type}

inductive Trace (step : ι → σ → ρ × σ) (ok : List (ι × ρ) → σ → ι → Prop) (s₀ : σ) :
    List (ι × ρ) → σ → Prop where
  | nil : Trace step ok s₀ [] s₀
  | snoc {es : List (ι × ρ)} {s : σ} (i : ι) (h : Trace step ok s₀ es s) (hok : ok es s i) :
      Trace step ok s₀ (es ++ [(i, (step i s).1)]) (step i s).2

namespace Trace

variable {step : ι → σ → ρ × σ} {ok : List (ι × ρ) → σ → ι → Prop} {s₀ s : σ} {es : List (ι × ρ)}

theorem invariant (P : List (ι × ρ) → σ → Prop) (h₀ : P [] s₀)
    (hstep : ∀ {es s i}, P es s → ok es s i → P (es ++ [(i, (step i s).1)]) (step i s).2)
    (h : Trace step ok s₀ es s) : P es s := by
  induction h with
  | nil => exact h₀
  | snoc i _ hok ih => exact hstep ih hok

end Trace
