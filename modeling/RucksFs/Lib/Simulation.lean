import Mathlib.Data.List.Forall2
import RucksFs.Lib.Interleave

/-!
# Simulation between systems that run the same programs

Two systems run the same programs over different states: the lower one over a representation, the upper one over what
is represented.  The programs see answers only, so that as long as both give the same answers the threads of both stay
at the same point of the same program.

* `Conf.Sim` — the shared states are related by `R`, the threads do the same, and their local states are related by `T`.
* `Reach.simulate` — when every single effect is matched by the upper system with the same answer, every run of the lower
  system is matched by a run of the upper one.
-/

set_option autoImplicit false

open Prog

variable {σ τ ι ε α L M : Type} {ρ : ε → Type}

/-- The effect that a program performs next. -/
def Prog.effect? : Prog ε ρ α → Option ε
  | .ret _ => none
  | .call e _ => some e

/-- The effects that come next. -/
def Conf.next (c : Conf σ ι ε ρ α L) : List ε := (c.threads.map Thread.prog).filterMap Prog.effect?

theorem Conf.mem_next {c : Conf σ ι ε ρ α L} {i : ι} {e : ε} {k : ρ e → Prog ε ρ α} {l : L}
    (h : ⟨i, .call e k, l⟩ ∈ c.threads) : e ∈ c.next :=
  List.mem_filterMap.2 ⟨_, List.mem_map_of_mem h, rfl⟩

/-- Two threads are at the same point of the same program. -/
structure Thread.Sim (T : L → M → Prop) (u : Thread ι ε ρ α L) (v : Thread ι ε ρ α M) : Prop where
  tag : v.tag = u.tag
  prog : v.prog = u.prog
  loc : T u.loc v.loc

theorem Thread.Sim.symm {T : L → M → Prop} {u : Thread ι ε ρ α L} {v : Thread ι ε ρ α M} (h : Thread.Sim T u v) :
    Thread.Sim (fun m l => T l m) v u :=
  ⟨h.tag.symm, h.prog.symm, h.loc⟩

structure Conf.Sim (R : σ → τ → Prop) (T : L → M → Prop) (c : Conf σ ι ε ρ α L) (d : Conf τ ι ε ρ α M) : Prop where
  shared : R c.shared d.shared
  threads : List.Forall₂ (Thread.Sim T) c.threads d.threads

namespace List.Forall₂

variable {β γ : Type} {S : β → γ → Prop}

theorem getElem?_left {us : List β} {vs : List γ} (h : Forall₂ S us vs) {n : Nat} {u : β} (hn : us[n]? = some u) :
    ∃ v, vs[n]? = some v ∧ S u v := by
  induction h generalizing n with
  | nil => simp at hn
  | cons huv _ ih =>
      cases n with
      | zero =>
          cases hn
          exact ⟨_, rfl, huv⟩
      | succ n => exact ih hn

theorem set {us : List β} {vs : List γ} (h : Forall₂ S us vs) {u : β} {v : γ} (huv : S u v) (n : Nat) :
    Forall₂ S (us.set n u) (vs.set n v) := by
  induction h generalizing n with
  | nil => exact .nil
  | cons hd htl ih =>
      cases n with
      | zero => exact .cons huv htl
      | succ n => exact .cons hd (ih n)

theorem eraseIdx {us : List β} {vs : List γ} (h : Forall₂ S us vs) (n : Nat) :
    Forall₂ S (us.eraseIdx n) (vs.eraseIdx n) := by
  induction h generalizing n with
  | nil => exact .nil
  | cons hd htl ih =>
      cases n with
      | zero => exact htl
      | succ n => exact .cons hd (ih n)

/-- What is read off the threads in the same way is the same. -/
theorem map_eq {δ : Type} {us : List β} {vs : List γ} {f : β → δ} {g : γ → δ} (h : Forall₂ S us vs)
    (hfg : ∀ u v, S u v → g v = f u) : vs.map g = us.map f := by
  induction h with
  | nil => rfl
  | cons hd _ ih => rw [List.map_cons, List.map_cons, ih, hfg _ _ hd]

end List.Forall₂

namespace Conf.Sim

variable {R : σ → τ → Prop} {T : L → M → Prop} {c : Conf σ ι ε ρ α L} {d : Conf τ ι ε ρ α M}

theorem symm (h : Conf.Sim R T c d) : Conf.Sim (fun t s => R s t) (fun m l => T l m) d c :=
  ⟨h.shared, h.threads.flip.imp fun _ _ huv => huv.symm⟩

theorem next_eq (h : Conf.Sim R T c d) : d.next = c.next := by
  have hprogs : d.threads.map Thread.prog = c.threads.map Thread.prog := h.threads.map_eq fun _ _ huv => huv.prog
  rw [Conf.next, hprogs, Conf.next]

end Conf.Sim

/-- **Simulation.**  Every run of `A` is a run of `B` with the same threads. -/
theorem Reach.simulate {A : System σ ι ε ρ α L} {B : System τ ι ε ρ α M} {R : σ → τ → Prop} {T : L → M → Prop}
    {Hyp : Conf σ ι ε ρ α L → Prop} {Hyp' : Conf τ ι ε ρ α M → Prop} {c₀ c : Conf σ ι ε ρ α L}
    {d₀ : Conf τ ι ε ρ α M} (hbody : B.body = A.body) (hloc : T A.loc₀ B.loc₀)
    (hhyp : ∀ c d, Conf.Sim R T c d → Hyp c → Hyp' d)
    (hstart : ∀ {c : Conf σ ι ε ρ α L} {t : τ} {i : ι}, R c.shared t → A.admits c.shared i → B.admits t i)
    (hact : ∀ {c : Conf σ ι ε ρ α L} {i : ι} {e : ε} {k : ρ e → Prog ε ρ α} {os : List (Thread ι ε ρ α L)}
      {os' : List (Thread ι ε ρ α M)} {l l' : L} {m : M} {t : τ} {r : ρ e} {s' : σ}, Hyp c →
      ⟨i, .call e k, l⟩ ∈ c.threads → R c.shared t → List.Forall₂ (Thread.Sim T) os os' → T l m →
      A.act os e l c.shared r l' s' → ∃ m' t', B.act os' e m t r m' t' ∧ R s' t' ∧ T l' m')
    (h₀ : Conf.Sim R T c₀ d₀) (h : Reach A Hyp c₀ c) : ∃ d, Reach B Hyp' d₀ d ∧ Conf.Sim R T c d := by
  induction h with
  | init hH => exact ⟨d₀, .init (hhyp _ _ h₀ hH), h₀⟩
  | @step c c' hr hs hH ih =>
      obtain ⟨d, hd, hsim⟩ := ih
      cases hs with
      | @start i hadm =>
          have hspawn : Thread.Sim T (A.spawn i) (B.spawn i) := ⟨rfl, congrFun hbody i, hloc⟩
          have hsim' : Conf.Sim R T ⟨c.shared, c.threads ++ [A.spawn i]⟩ ⟨d.shared, d.threads ++ [B.spawn i]⟩ :=
            ⟨hsim.shared, List.rel_append hsim.threads (.cons hspawn .nil)⟩
          exact ⟨_, .step hd (.start (hstart hsim.shared hadm)) (hhyp _ _ hsim' hH), hsim'⟩
      | @act n i e k l l' r s' hn ha =>
          obtain ⟨⟨j, p, m⟩, hm, htag, hprog, hlm⟩ := hsim.threads.getElem?_left hn
          dsimp only at htag hprog hlm
          subst htag hprog
          obtain ⟨m', t', hB, hR, hT⟩ :=
            hact hr.hyp (List.mem_of_getElem? hn) hsim.shared (hsim.threads.eraseIdx n) hlm ha
          have hsim' : Conf.Sim R T ⟨s', c.threads.set n ⟨j, k r, l'⟩⟩ ⟨t', d.threads.set n ⟨j, k r, m'⟩⟩ :=
            ⟨hR, hsim.threads.set ⟨rfl, rfl, hT⟩ n⟩
          exact ⟨_, .step hd (.act hm hB) (hhyp _ _ hsim' hH), hsim'⟩
