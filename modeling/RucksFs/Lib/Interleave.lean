import Mathlib.Data.List.Basic
import Mathlib.Logic.Relation
import Mathlib.Order.Basic
import RucksFs.Lib.Prog

/-!
# Interleavings of programs

A `System` runs any number of programs over one shared state.  Each thread has a local state;
one step either starts a new thread or performs the next effect of one thread.  Whether an
effect can be performed may depend on the local states of the other threads, which is how a
lock held elsewhere blocks.

* `Reach` — the configurations of all runs whose states satisfy a hypothesis `Hyp`.
* `Reach.invariant` — the thread-modular rule: when every program meets its contract (`wp`), a
  property `G` holds in every reachable configuration as soon as each single effect that meets
  its precondition preserves it.
* `Pool`, `Apart` — what holds of every thread, and of every two threads, when one of them changes.
* `Reach.ghost` — the thread-modular rule with a ghost state for each thread.
* `not_waits_in_circle` — the lock-order argument.
* `Schedule.run`, `Schedule.reach` — an executable scheduler, for exhibiting particular runs.
-/

set_option autoImplicit false

open Prog

variable {σ ι ε α L : Type} {ρ : ε → Type}

/-- One thread: the call it serves, what is left of its program, and its local state. -/
structure Thread (ι ε : Type) (ρ : ε → Type) (α L : Type) where
  tag : ι
  prog : Prog ε ρ α
  loc : L

/-- A thread has returned when nothing is left of its program. -/
def Thread.result (th : Thread ι ε ρ α L) : Option α :=
  match th.prog with
  | .ret a => some a
  | .call _ _ => none

/-- The effect a thread is about to perform. -/
def Thread.nextEff (th : Thread ι ε ρ α L) : Option ε :=
  match th.prog with
  | .ret _ => none
  | .call e _ => some e

structure Conf (σ ι ε : Type) (ρ : ε → Type) (α L : Type) where
  shared : σ
  threads : List (Thread ι ε ρ α L)

/-- The programs of a system, who may start, and the meaning of one effect: next to threads
`os`, effect `e` takes `(l, s)` to answer `r` and `(l', s')`. -/
structure System (σ ι ε : Type) (ρ : ε → Type) (α L : Type) where
  body : ι → Prog ε ρ α
  loc₀ : L
  admits : σ → ι → Prop
  act : List (Thread ι ε ρ α L) → (e : ε) → L → σ → ρ e → L → σ → Prop

/-- A new thread. -/
def System.spawn (sys : System σ ι ε ρ α L) (i : ι) : Thread ι ε ρ α L := ⟨i, sys.body i, sys.loc₀⟩

/-- One step of one interleaving. -/
inductive Step (sys : System σ ι ε ρ α L) : Conf σ ι ε ρ α L → Conf σ ι ε ρ α L → Prop where
  | start {c : Conf σ ι ε ρ α L} {i : ι} (h : sys.admits c.shared i) :
      Step sys c ⟨c.shared, c.threads ++ [sys.spawn i]⟩
  | act {c : Conf σ ι ε ρ α L} {n : Nat} {i : ι} {e : ε} {k : ρ e → Prog ε ρ α} {l l' : L}
      {r : ρ e} {s' : σ} (hn : c.threads[n]? = some ⟨i, .call e k, l⟩)
      (h : sys.act (c.threads.eraseIdx n) e l c.shared r l' s') :
      Step sys c ⟨s', c.threads.set n ⟨i, k r, l'⟩⟩

/-- Configurations of runs from `c₀` all of whose states satisfy `Hyp`. -/
inductive Reach (sys : System σ ι ε ρ α L) (Hyp : Conf σ ι ε ρ α L → Prop)
    (c₀ : Conf σ ι ε ρ α L) : Conf σ ι ε ρ α L → Prop where
  | init (h : Hyp c₀) : Reach sys Hyp c₀ c₀
  | step {c c' : Conf σ ι ε ρ α L} (hr : Reach sys Hyp c₀ c) (hs : Step sys c c') (h : Hyp c') :
      Reach sys Hyp c₀ c'

namespace Reach

variable {sys : System σ ι ε ρ α L} {Hyp : Conf σ ι ε ρ α L → Prop} {c₀ c : Conf σ ι ε ρ α L}

theorem hyp (h : Reach sys Hyp c₀ c) : Hyp c := by
  cases h with
  | init h => exact h
  | step _ _ h => exact h

/-- **Thread-modular invariants.**  The programs enter only through their contracts `C`; what an
answer guarantees may be justified by the invariant before and after the effect. -/
theorem invariant (C : ι → Contract ε ρ L) (Q : ι → α → L → Prop) (G : Conf σ ι ε ρ α L → Prop)
    (hnone : c₀.threads = []) (hinit : Hyp c₀ → G c₀)
    (hbody : ∀ i, wp (C i) (sys.body i) (Q i) sys.loc₀)
    (hstart : ∀ {c : Conf σ ι ε ρ α L} {i : ι}, Hyp c → G c → sys.admits c.shared i →
      G ⟨c.shared, c.threads ++ [sys.spawn i]⟩)
    (hact : ∀ {c : Conf σ ι ε ρ α L} {n : Nat} {i : ι} {e : ε} {k : ρ e → Prog ε ρ α} {l l' : L}
      {r : ρ e} {s' : σ}, Hyp c → G c → c.threads[n]? = some ⟨i, .call e k, l⟩ → (C i).pre e l →
      sys.act (c.threads.eraseIdx n) e l c.shared r l' s' →
      Hyp ⟨s', c.threads.set n ⟨i, k r, l'⟩⟩ →
      G ⟨s', c.threads.set n ⟨i, k r, l'⟩⟩ ∧ (C i).post e l r l')
    (h : Reach sys Hyp c₀ c) :
    G c ∧ ∀ th ∈ c.threads, wp (C th.tag) th.prog (Q th.tag) th.loc := by
  induction h with
  | init h => exact ⟨hinit h, by simp [hnone]⟩
  | @step c c' hr hs hH ih =>
      obtain ⟨hG, hwp⟩ := ih
      cases hs with
      | @start i hadm =>
          refine ⟨hstart hr.hyp hG hadm, fun th hth => ?_⟩
          rcases List.mem_append.1 hth with hth | hth
          · exact hwp th hth
          · rw [List.mem_singleton.1 hth]
            exact hbody i
      | @act n i e k l l' r s' hn ha =>
          have hth := hwp _ (List.mem_of_getElem? hn)
          obtain ⟨hG', hp⟩ := hact hr.hyp hG hn hth.1 ha hH
          refine ⟨hG', fun th hmem => ?_⟩
          rcases List.mem_or_eq_of_mem_set hmem with hmem | rfl
          · exact hwp th hmem
          · exact hth.2 r l' hp

end Reach

/-! ## Pools of threads -/

section Pool

variable {T : Type} {P P' : T → Prop} {R R' : T → T → Prop} {ts : List T} {n : Nat} {t t' : T}

/-- Every thread of the pool satisfies `P`. -/
def Pool (P : T → Prop) (ts : List T) : Prop := ∀ (m : Nat) (u : T), ts[m]? = some u → P u

/-- Every two different threads of the pool are related by `R`. -/
def Apart (R : T → T → Prop) (ts : List T) : Prop :=
  ∀ (m n : Nat) (u v : T), m ≠ n → ts[m]? = some u → ts[n]? = some v → R u v

instance [DecidablePred P] : Decidable (Pool P ts) :=
  decidable_of_iff (∀ u ∈ ts, P u) <| by
    constructor
    · exact fun h m u hu => h u (List.mem_of_getElem? hu)
    · intro h u hu
      obtain ⟨m, hm⟩ := List.mem_iff_getElem?.1 hu
      exact h m u hm

instance [DecidableRel R] : Decidable (Apart R ts) :=
  decidable_of_iff (∀ x ∈ ts.zipIdx, ∀ y ∈ ts.zipIdx, x.2 ≠ y.2 → R x.1 y.1) <| by
    constructor
    · intro h m n u v hne hu hv
      exact h (u, m) (List.mem_zipIdx_iff_getElem?.2 hu) (v, n) (List.mem_zipIdx_iff_getElem?.2 hv) hne
    · intro h x hx y hy hne
      exact h x.2 y.2 x.1 y.1 hne (List.mem_zipIdx_iff_getElem?.1 hx) (List.mem_zipIdx_iff_getElem?.1 hy)

theorem mem_eraseIdx_of_getElem? {m : Nat} (hne : m ≠ n) (hm : ts[m]? = some t) :
    t ∈ ts.eraseIdx n := List.mem_eraseIdx_iff_getElem?.2 ⟨m, hne, hm⟩

/-- A position of the pool after thread `n` has changed. -/
theorem getElem?_set_cases {m : Nat} {u : T} (h : (ts.set n t')[m]? = some u) :
    (m = n ∧ u = t') ∨ (m ≠ n ∧ ts[m]? = some u) := by
  rw [List.getElem?_set] at h
  split at h
  · rename_i e
    split at h
    · exact Or.inl ⟨e.symm, (Option.some.inj h).symm⟩
    · cases h
  · rename_i e
    exact Or.inr ⟨fun e' => e e'.symm, h⟩

/-- A position of the pool after a thread has started. -/
theorem getElem?_append_cases {m : Nat} {u : T} (h : (ts ++ [t'])[m]? = some u) :
    (m = ts.length ∧ u = t') ∨ (m ≠ ts.length ∧ ts[m]? = some u) := by
  rcases Nat.lt_or_ge m ts.length with hlt | hge
  · rw [List.getElem?_append_left hlt] at h
    exact Or.inr ⟨Nat.ne_of_lt hlt, h⟩
  · rw [List.getElem?_append_right hge] at h
    obtain ⟨hm, hu⟩ := List.getElem?_eq_some_iff.1 h
    have hz : m - ts.length = 0 := by simpa using hm
    refine Or.inl ⟨by omega, ?_⟩
    rw [← hu]
    simp

namespace Pool

theorem of_mem (h : Pool P ts) (ht : t ∈ ts) : P t := by
  obtain ⟨m, hm⟩ := List.mem_iff_getElem?.1 ht
  exact h m t hm

theorem mono (h : Pool P ts) (hP : ∀ t, P t → P' t) : Pool P' ts := fun m u hu => hP u (h m u hu)

/-- Thread `n` changes to `t'`, the others go from `P` to `P'`. -/
theorem set (h : Pool P ts) (ht : P' t') (ho : ∀ m u, m ≠ n → ts[m]? = some u → P u → P' u) :
    Pool P' (ts.set n t') := by
  intro m u hu
  rcases getElem?_set_cases hu with ⟨-, rfl⟩ | ⟨hne, hm⟩
  · exact ht
  · exact ho m u hne hm (h m u hm)

theorem append (h : Pool P ts) (ht : P t') : Pool P (ts ++ [t']) := by
  intro m u hu
  rcases getElem?_append_cases hu with ⟨-, rfl⟩ | ⟨-, hm⟩
  · exact ht
  · exact h m u hm

end Pool

namespace Apart

/-- Thread `n` changes to `t'`, which is apart from all the others. -/
theorem set (h : Apart R ts) (hs : ∀ {u v}, R u v → R v u)
    (ht : ∀ m u, m ≠ n → ts[m]? = some u → R t' u) : Apart R (ts.set n t') := by
  intro m k u v hne hu hv
  rcases getElem?_set_cases hu with ⟨rfl, rfl⟩ | ⟨hm, hu'⟩
  · rcases getElem?_set_cases hv with ⟨rfl, -⟩ | ⟨hk, hv'⟩
    · exact absurd rfl hne
    · exact ht k v hk hv'
  · rcases getElem?_set_cases hv with ⟨rfl, rfl⟩ | ⟨hk, hv'⟩
    · exact hs (ht m u hm hu')
    · exact h m k u v hne hu' hv'

theorem append (h : Apart R ts) (hs : ∀ {u v}, R u v → R v u)
    (ht : ∀ (m : Nat) (u : T), ts[m]? = some u → R t' u) : Apart R (ts ++ [t']) := by
  intro m k u v hne hu hv
  rcases getElem?_append_cases hu with ⟨rfl, rfl⟩ | ⟨-, hu'⟩
  · rcases getElem?_append_cases hv with ⟨rfl, -⟩ | ⟨-, hv'⟩
    · exact absurd rfl hne
    · exact ht k v hv'
  · rcases getElem?_append_cases hv with ⟨rfl, rfl⟩ | ⟨-, hv'⟩
    · exact hs (ht m u hu')
    · exact h m k u v hne hu' hv'

end Apart

end Pool

/-! ## Ghost states -/

section Ghost

variable {sys : System σ ι ε ρ α L} {Hyp : Conf σ ι ε ρ α L → Prop} {c₀ c : Conf σ ι ε ρ α L}

/-- **Ghost states.**  Thread `n` is given a ghost state `γ n`, of which its program knows what the
contracts `C` say and which the invariant `J` ties to the configuration.  It exists for the proof only:
no effect depends on it. -/
theorem Reach.ghost {G : Type} (C : ι → Contract ε ρ G) (Q : ι → α → G → Prop) (g₀ : G)
    (J : (Nat → G) → Conf σ ι ε ρ α L → Prop) (hnone : c₀.threads = []) (hinit : J (fun _ => g₀) c₀)
    (hbody : ∀ i, wp (C i) (sys.body i) (Q i) g₀)
    (hstart : ∀ {γ : Nat → G} {c : Conf σ ι ε ρ α L} {i : ι}, Reach sys Hyp c₀ c → J γ c →
      sys.admits c.shared i → Hyp ⟨c.shared, c.threads ++ [sys.spawn i]⟩ →
      J (Function.update γ c.threads.length g₀) ⟨c.shared, c.threads ++ [sys.spawn i]⟩)
    (hact : ∀ {γ : Nat → G} {c : Conf σ ι ε ρ α L} {n : Nat} {i : ι} {e : ε} {k : ρ e → Prog ε ρ α}
      {l l' : L} {r : ρ e} {s' : σ}, Reach sys Hyp c₀ c → J γ c →
      (∀ m th, c.threads[m]? = some th → wp (C th.tag) th.prog (Q th.tag) (γ m)) →
      c.threads[n]? = some ⟨i, .call e k, l⟩ → (C i).pre e (γ n) →
      sys.act (c.threads.eraseIdx n) e l c.shared r l' s' → Hyp ⟨s', c.threads.set n ⟨i, k r, l'⟩⟩ →
      ∃ g', (C i).post e (γ n) r g' ∧ J (Function.update γ n g') ⟨s', c.threads.set n ⟨i, k r, l'⟩⟩)
    (h : Reach sys Hyp c₀ c) :
    ∃ γ, J γ c ∧ ∀ n th, c.threads[n]? = some th → wp (C th.tag) th.prog (Q th.tag) (γ n) := by
  induction h with
  | init h => exact ⟨_, hinit, by simp [hnone]⟩
  | @step c c' hr hs hH ih =>
      obtain ⟨γ, hJ, hwp⟩ := ih
      cases hs with
      | @start i hadm =>
          refine ⟨_, hstart hr hJ hadm hH, fun m th hth => ?_⟩
          rcases getElem?_append_cases hth with ⟨rfl, rfl⟩ | ⟨hne, hth⟩
          · rw [Function.update_self]
            exact hbody i
          · rw [Function.update_of_ne hne]
            exact hwp m th hth
      | @act n i e k l l' r s' hn ha =>
          have hth := hwp n _ hn
          obtain ⟨g', hp, hJ'⟩ := hact hr hJ hwp hn hth.1 ha hH
          refine ⟨_, hJ', fun m th hm => ?_⟩
          rcases getElem?_set_cases hm with ⟨rfl, rfl⟩ | ⟨hne, hm⟩
          · rw [Function.update_self]
            exact hth.2 r g' hp
          · rw [Function.update_of_ne hne]
            exact hwp m th hm

end Ghost

/-! ## Waiting -/

/-- Threads that wait for each other do not wait in a circle when a rank grows from each of them to the
one it waits for; only those that wait themselves need one. -/
theorem not_waits_in_circle {T β : Type} [Preorder β] {waits : T → T → Prop} (rank : T → β)
    (h : ∀ {a b d}, waits a b → waits b d → rank a < rank b) (a : T) : ¬Relation.TransGen waits a a := by
  have hmono : ∀ {a b d}, Relation.TransGen waits a b → waits b d → rank a < rank b := by
    intro a b d hab
    induction hab generalizing d with
    | single hab => exact h hab
    | tail hab hbc ih => exact fun hcd => (ih hbc).trans (h hbc hcd)
  intro hcycle
  obtain ⟨b, hab, -⟩ := Relation.TransGen.head'_iff.1 hcycle
  exact lt_irrefl _ (hmono hcycle hab)

/-! ## Schedules -/

/-- Who moves next: a new thread starts, or thread `n` performs its next effect. -/
inductive Choice (ι : Type) where
  | start (i : ι)
  | run (n : Nat)

/-- A resolution of a system's choices that can be computed, with tests for the conditions on a run. -/
structure Scheduler (σ ι ε : Type) (ρ : ε → Type) (α L : Type) where
  sys : System σ ι ε ρ α L
  starts : σ → ι → Bool
  next : List (Thread ι ε ρ α L) → (e : ε) → L → σ → Option (ρ e × L × σ)
  check : Conf σ ι ε ρ α L → Bool

namespace Scheduler

variable (S : Scheduler σ ι ε ρ α L)

/-- One move; `none` if it is not possible. -/
def move (c : Conf σ ι ε ρ α L) : Choice ι → Option (Conf σ ι ε ρ α L)
  | .start i => if S.starts c.shared i then some ⟨c.shared, c.threads ++ [S.sys.spawn i]⟩ else none
  | .run n =>
      match c.threads[n]? with
      | some ⟨i, .call e k, l⟩ =>
          (S.next (c.threads.eraseIdx n) e l c.shared).map fun x =>
            ⟨x.2.2, c.threads.set n ⟨i, k x.1, x.2.1⟩⟩
      | _ => none

/-- All moves, each leading to a state that passes the test. -/
def run : List (Choice ι) → Conf σ ι ε ρ α L → Option (Conf σ ι ε ρ α L)
  | [], c => some c
  | x :: xs, c =>
      match S.move c x with
      | some c' => if S.check c' then run xs c' else none
      | none => none

section

variable {S} (hstarts : ∀ s i, S.starts s i = true → S.sys.admits s i)
  (hnext : ∀ os e l s r l' s', S.next os e l s = some (r, l', s') → S.sys.act os e l s r l' s')

include hstarts hnext

theorem step_of_move {c c' : Conf σ ι ε ρ α L} {x : Choice ι} (h : S.move c x = some c') :
    Step S.sys c c' := by
  cases x with
  | start i =>
      simp only [move, Option.ite_none_right_eq_some] at h
      obtain ⟨hs, hc⟩ := h
      cases hc
      exact .start (hstarts _ i hs)
  | run n =>
      simp only [move] at h
      split at h
      · rename_i i e k l hn
        obtain ⟨⟨r, l', s'⟩, hx, rfl⟩ := Option.map_eq_some_iff.1 h
        exact .act hn (hnext _ e l _ r l' s' hx)
      · cases h

/-- Whatever the scheduler does is a run of its system. -/
theorem reach {Hyp : Conf σ ι ε ρ α L → Prop} {c₀ : Conf σ ι ε ρ α L}
    (hcheck : ∀ c, S.check c = true → Hyp c) :
    ∀ (xs : List (Choice ι)) {c c' : Conf σ ι ε ρ α L}, Reach S.sys Hyp c₀ c → S.run xs c = some c' →
      Reach S.sys Hyp c₀ c'
  | [], c, c', h, hr => by
      cases hr
      exact h
  | x :: xs, c, c', h, hr => by
      unfold run at hr
      split at hr
      · rename_i d hd
        split at hr
        · rename_i hc
          exact reach hcheck xs (.step h (step_of_move hstarts hnext hd) (hcheck d hc)) hr
        · cases hr
      · cases hr

end

end Scheduler
