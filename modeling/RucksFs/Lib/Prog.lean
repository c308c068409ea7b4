import Mathlib.Init

/-!
# Programs over a signature of effects

`Prog ε ρ α` is the type of finite programs that perform effects `e : ε`, receive an answer in
`ρ e` and end with a value in `α`.  A program text is written once, in `do` notation, and is
then given more than one meaning:

* `run` — the sequential meaning under a handler `(e : ε) → σ → ρ e × σ`;
* `performed` — the effects of a sequential run;
* `wp` — the weakest precondition under a `Contract`, which states for each effect what must
  hold before it and what may be assumed of its answer.  `wp_bind` is the sequencing rule,
  `wp_mono` the consequence rule.

* `Runs` — the runs in which each effect answers as a relation allows, with the answers; `Runs.wp` says that
  what a program guarantees by `wp` holds at the end of each of them.

Fallible programs are `ExceptT ξ (Prog ε ρ)`; `run_except_bind` and `wpE_bind` are the sequencing
rules for them.
-/

set_option autoImplicit false

inductive Prog (ε : Type) (ρ : ε → Type) (α : Type) : Type where
  | ret (a : α)
  | call (e : ε) (k : ρ e → Prog ε ρ α)

namespace Prog

variable {ε σ L α β : Type} {ρ : ε → Type}

def bind : Prog ε ρ α → (α → Prog ε ρ β) → Prog ε ρ β
  | ret a, f => f a
  | call e k, f => call e (fun r => bind (k r) f)

instance : Monad (Prog ε ρ) where
  pure := ret
  bind := bind

/-- The program that performs one effect and returns its answer. -/
def perform (e : ε) : Prog ε ρ (ρ e) := call e ret

theorem call_bind (e : ε) (k : ρ e → Prog ε ρ α) (f : α → Prog ε ρ β) :
    (call e k >>= f) = call e (fun r => k r >>= f) := rfl

/-! ## Sequential runs -/

/-- Run a program to its end, one effect after the other. -/
def run (h : (e : ε) → σ → ρ e × σ) : Prog ε ρ α → σ → α × σ
  | ret a, s => (a, s)
  | call e k, s => run h (k (h e s).1) (h e s).2

@[simp] theorem run_pure (h : (e : ε) → σ → ρ e × σ) (a : α) (s : σ) :
    run h (pure a) s = (a, s) := rfl

@[simp] theorem run_perform (h : (e : ε) → σ → ρ e × σ) (e : ε) (s : σ) :
    run h (perform e) s = h e s := rfl

theorem run_bind (h : (e : ε) → σ → ρ e × σ) (f : α → Prog ε ρ β) :
    ∀ (x : Prog ε ρ α) (s : σ), run h (x >>= f) s = run h (f (run h x s).1) (run h x s).2
  | ret _, _ => rfl
  | call e k, s => by
    rw [call_bind]
    exact run_bind h f (k (h e s).1) (h e s).2

/-- Sequencing of fallible programs: the rest runs only after a success. -/
theorem run_except_bind {ξ : Type} (h : (e : ε) → σ → ρ e × σ) (x : ExceptT ξ (Prog ε ρ) α)
    (f : α → ExceptT ξ (Prog ε ρ) β) (s : σ) :
    run h (x >>= f).run s =
      match run h x.run s with
      | (.ok a, s') => run h (f a).run s'
      | (.error e, s') => (.error e, s') := by
  have hb : (x >>= f).run = x.run >>= fun r => ExceptT.bindCont f r := rfl
  rw [hb, run_bind]
  rcases run h x.run s with ⟨r, s'⟩
  cases r <;> rfl

/-- The effects of a sequential run, with their answers. -/
def performed (h : (e : ε) → σ → ρ e × σ) : Prog ε ρ α → σ → List ((e : ε) × ρ e)
  | ret _, _ => []
  | call e k, s => ⟨e, (h e s).1⟩ :: performed h (k (h e s).1) (h e s).2

theorem performed_bind (h : (e : ε) → σ → ρ e × σ) (f : α → Prog ε ρ β) :
    ∀ (x : Prog ε ρ α) (s : σ),
      performed h (x >>= f) s = performed h x s ++ performed h (f (run h x s).1) (run h x s).2
  | ret _, _ => rfl
  | call e k, s => by
    rw [call_bind]
    exact congrArg (List.cons _) (performed_bind h f (k (h e s).1) (h e s).2)

theorem performed_except_bind {ξ : Type} (h : (e : ε) → σ → ρ e × σ) (x : ExceptT ξ (Prog ε ρ) α)
    (f : α → ExceptT ξ (Prog ε ρ) β) (s : σ) :
    performed h (x >>= f).run s = performed h x.run s ++
      match run h x.run s with
      | (.ok a, s') => performed h (f a).run s'
      | (.error _, _) => [] := by
  have hb : (x >>= f).run = x.run >>= fun r => ExceptT.bindCont f r := rfl
  rw [hb, performed_bind]
  rcases run h x.run s with ⟨r, s'⟩
  cases r <;> rfl

/-- Carry out every effect by a program over other effects. -/
def expand {ε' : Type} {ρ' : ε' → Type} (f : (e : ε) → Prog ε' ρ' (ρ e)) : Prog ε ρ α → Prog ε' ρ' α
  | ret a => ret a
  | call e k => f e >>= fun r => expand f (k r)

/-- What another state shows of a run does not change when every effect is carried out so. -/
theorem run_expand {ε' τ : Type} {ρ' : ε' → Type} {f : (e : ε) → Prog ε' ρ' (ρ e)}
    {h : (e : ε) → σ → ρ e × σ} {h' : (e' : ε') → τ → ρ' e' × τ} (view : τ → σ)
    (hf : ∀ e t, ((run h' (f e) t).1, view (run h' (f e) t).2) = h e (view t)) :
    ∀ (x : Prog ε ρ α) (t : τ), ((run h' (expand f x) t).1, view (run h' (expand f x) t).2) = run h x (view t)
  | ret _, _ => rfl
  | call e k, t => by
    unfold expand
    rw [run_bind, run, ← hf e t]
    exact run_expand view hf (k (run h' (f e) t).1) (run h' (f e) t).2

/-! ## Weakest preconditions -/

/-- What each effect requires of the local state and what its answer guarantees. -/
structure Contract (ε : Type) (ρ : ε → Type) (L : Type) where
  pre : ε → L → Prop
  post : (e : ε) → L → ρ e → L → Prop

/-- Every effect the program performs from `l` meets its precondition, and every end meets `Q`. -/
def wp (C : Contract ε ρ L) : Prog ε ρ α → (α → L → Prop) → L → Prop
  | ret a, Q, l => Q a l
  | call e k, Q, l => C.pre e l ∧ ∀ r l', C.post e l r l' → wp C (k r) Q l'

/-- The contract that asks for nothing and follows a ghost state along the answers. -/
def tracking (upd : L → (e : ε) → ρ e → L) : Contract ε ρ L where
  pre _ _ := True
  post e l r l' := l' = upd l e r

@[simp] theorem wp_ret (C : Contract ε ρ L) (a : α) (Q : α → L → Prop) (l : L) :
    wp C (ret a) Q l ↔ Q a l := Iff.rfl

/-- A contract without preconditions guarantees at least nothing. -/
theorem wp_true {C : Contract ε ρ L} (hpre : ∀ e l, C.pre e l) :
    ∀ (x : Prog ε ρ α) (l : L), wp C x (fun _ _ => True) l
  | ret _, _ => trivial
  | call e k, l => ⟨hpre e l, fun r l' _ => wp_true hpre (k r) l'⟩

theorem wp_mono {C : Contract ε ρ L} {Q Q' : α → L → Prop} (hQ : ∀ a l, Q a l → Q' a l) :
    ∀ {x : Prog ε ρ α} {l : L}, wp C x Q l → wp C x Q' l
  | ret a, l, h => hQ a l h
  | call _ _, _, h => ⟨h.1, fun r l' hp => wp_mono hQ (h.2 r l' hp)⟩

theorem wp_bind (C : Contract ε ρ L) (f : α → Prog ε ρ β) (Q : β → L → Prop) :
    ∀ (x : Prog ε ρ α) (l : L),
      wp C (x >>= f) Q l ↔ wp C x (fun a l' => wp C (f a) Q l') l
  | ret _, _ => Iff.rfl
  | call e k, l => by
    rw [call_bind]
    simp only [wp]
    constructor
    · rintro ⟨hpre, hk⟩
      exact ⟨hpre, fun r l' hp => (wp_bind C f Q (k r) l').1 (hk r l' hp)⟩
    · rintro ⟨hpre, hk⟩
      exact ⟨hpre, fun r l' hp => (wp_bind C f Q (k r) l').2 (hk r l' hp)⟩

/-- A program keeps its contract when its effects are carried out by programs that keep theirs. -/
theorem wp_expand {ε' : Type} {ρ' : ε' → Type} {C : Contract ε ρ L} {C' : Contract ε' ρ' L}
    {f : (e : ε) → Prog ε' ρ' (ρ e)} {Q : α → L → Prop}
    (hf : ∀ e l, C.pre e l → wp C' (f e) (fun r l' => C.post e l r l') l) :
    ∀ (x : Prog ε ρ α) (l : L), wp C x Q l → wp C' (expand f x) Q l
  | ret _, _, hx => hx
  | call e k, l, hx => by
    unfold expand
    rw [wp_bind]
    exact wp_mono (fun r l' hp => wp_expand hf (k r) l' (hx.2 r l' hp)) (hf e l hx.1)

/-- Weakest precondition of a fallible program: a success meets `Q`, a failure leaves `E`. -/
def wpE {ξ : Type} (C : Contract ε ρ L) (E : L → Prop) (x : ExceptT ξ (Prog ε ρ) α)
    (Q : α → L → Prop) (l : L) : Prop :=
  wp C x.run (fun r l' => match r with
    | .ok a => Q a l'
    | .error _ => E l') l

section Fallible

variable {ξ : Type} {C : Contract ε ρ L} {E E' : L → Prop} {Q Q' : α → L → Prop} {l : L}

@[simp] theorem wpE_pure (a : α) :
    wpE C E (pure a : ExceptT ξ (Prog ε ρ) α) Q l ↔ Q a l := Iff.rfl

theorem wpE_lift (x : Prog ε ρ α) :
    wpE C E (ExceptT.lift x : ExceptT ξ (Prog ε ρ) α) Q l ↔ wp C x Q l := by
  have hx : (ExceptT.lift x : ExceptT ξ (Prog ε ρ) α).run = x >>= fun a => ret (.ok a) := by
    show (Except.ok <$> x) = _
    rfl
  unfold wpE
  rw [hx, wp_bind]
  rfl

theorem wpE_bind (x : ExceptT ξ (Prog ε ρ) α) (f : α → ExceptT ξ (Prog ε ρ) β) (Q : β → L → Prop)
    (l : L) : wpE C E (x >>= f) Q l ↔ wpE C E x (fun a l' => wpE C E (f a) Q l') l := by
  have hb : (x >>= f).run = x.run >>= fun r => ExceptT.bindCont f r := rfl
  unfold wpE
  rw [hb, wp_bind]
  constructor <;> refine wp_mono fun r l' hr => ?_ <;> cases r <;> exact hr

/-- `if p then throw e` in front of a program. -/
theorem wpE_guard {p : Prop} [Decidable p] {e : ξ} {f : Unit → ExceptT ξ (Prog ε ρ) α}
    (hE : p → E l) (h : ¬p → wpE C E (f ()) Q l) :
    wpE C E (if p then throw e >>= f else f ()) Q l := by
  split
  · rename_i hp
    rw [wpE_bind]
    exact hE hp
  · rename_i hp
    exact h hp

theorem wpE_mono {x : ExceptT ξ (Prog ε ρ) α} (hQ : ∀ a l, Q a l → Q' a l) (hE : ∀ l, E l → E' l)
    (h : wpE C E x Q l) : wpE C E' x Q' l := by
  refine wp_mono (fun r l' hr => ?_) h
  cases r with
  | ok a => exact hQ a l' hr
  | error e => exact hE l' hr

end Fallible

/-! ## Runs with several possible answers -/

/-- `x` runs from `s` to `s'` with result `a`, each effect as `act` allows; `es` are the effects with their
answers. -/
inductive Runs (act : (e : ε) → σ → ρ e → σ → Prop) :
    Prog ε ρ α → σ → List ((e : ε) × ρ e) → α → σ → Prop where
  | ret (a : α) (s : σ) : Runs act (.ret a) s [] a s
  | call {e : ε} {k : ρ e → Prog ε ρ α} {s s' s'' : σ} {r : ρ e} {es : List ((e : ε) × ρ e)} {a : α}
      (ha : act e s r s') (h : Runs act (k r) s' es a s'') : Runs act (.call e k) s (⟨e, r⟩ :: es) a s''

/-- The contract of real states, next to a ghost state that follows the answers. -/
def acting {G : Type} (act : (e : ε) → σ → ρ e → σ → Prop) (upd : G → (e : ε) → ρ e → G) :
    Contract ε ρ (σ × G) where
  pre _ _ := True
  post e x r x' := act e x.1 r x'.1 ∧ x'.2 = upd x.2 e r

theorem Runs.wp {G : Type} {act : (e : ε) → σ → ρ e → σ → Prop} {upd : G → (e : ε) → ρ e → G}
    {x : Prog ε ρ α} {s s' : σ} {es : List ((e : ε) × ρ e)} {a : α} {Q : α → σ × G → Prop}
    (h : Runs act x s es a s') {g : G} (hx : wp (acting act upd) x Q (s, g)) :
    Q a (s', es.foldl (fun g ev => upd g ev.1 ev.2) g) := by
  induction h generalizing g with
  | ret a s => exact hx
  | call ha _ ih => exact ih (hx.2 _ (_, _) ⟨ha, rfl⟩)

end Prog
