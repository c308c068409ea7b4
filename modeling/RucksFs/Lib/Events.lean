import RucksFs.Lib.Interleave

/-!
# Runs with their events

`Run` is `Reach` with the list of the effects that were performed, oldest first.  It is for
statements about what lies between two effects, or about all that one thread has done.

* `Run.linked` — the shared state after one effect is the one before the next; `Linked.crossing`
  finds the effect at which a property of the shared state is lost.
* `Run.forall_events`, `Run.at_event` — what holds of every effect performed in a reachable
  configuration, and the configuration in which an effect was performed.
* `Run.tracked` — a ghost state computed from a thread's own effects, by the programs' `wp`.
* `Scheduler.record` — the effects of a schedule, for exhibiting particular runs.
-/

set_option autoImplicit false

open Prog

variable {σ ι ε α L : Type} {ρ : ε → Type}

/-- An effect that was performed: by whom, with which answer, and the shared state around it. -/
structure EffectEvent (σ ι ε : Type) (ρ : ε → Type) (L : Type) where
  thread : Nat
  tag : ι
  loc : L
  eff : ε
  ans : ρ eff
  before : σ
  after : σ

/-- Runs from `c₀` all of whose states satisfy `Hyp`, with their effects. -/
inductive Run (sys : System σ ι ε ρ α L) (Hyp : Conf σ ι ε ρ α L → Prop) (c₀ : Conf σ ι ε ρ α L) :
    List (EffectEvent σ ι ε ρ L) → Conf σ ι ε ρ α L → Prop where
  | init (h : Hyp c₀) : Run sys Hyp c₀ [] c₀
  | start {es : List (EffectEvent σ ι ε ρ L)} {c : Conf σ ι ε ρ α L} {i : ι} (hr : Run sys Hyp c₀ es c)
      (ha : sys.admits c.shared i) (h : Hyp ⟨c.shared, c.threads ++ [sys.spawn i]⟩) :
      Run sys Hyp c₀ es ⟨c.shared, c.threads ++ [sys.spawn i]⟩
  | act {es : List (EffectEvent σ ι ε ρ L)} {c : Conf σ ι ε ρ α L} {n : Nat} {i : ι} {e : ε}
      {k : ρ e → Prog ε ρ α} {l l' : L} {r : ρ e} {s' : σ} (hr : Run sys Hyp c₀ es c)
      (hn : c.threads[n]? = some ⟨i, .call e k, l⟩)
      (ha : sys.act (c.threads.eraseIdx n) e l c.shared r l' s')
      (h : Hyp ⟨s', c.threads.set n ⟨i, k r, l'⟩⟩) :
      Run sys Hyp c₀ (es ++ [⟨n, i, l, e, r, c.shared, s'⟩]) ⟨s', c.threads.set n ⟨i, k r, l'⟩⟩

/-- The effects lead from `s` to `s'` without a gap. -/
def Linked (s : σ) : List (EffectEvent σ ι ε ρ L) → σ → Prop
  | [], s' => s = s'
  | ev :: es, s' => ev.before = s ∧ Linked ev.after es s'

namespace Linked

variable {s s' s'' : σ} {es es' : List (EffectEvent σ ι ε ρ L)}

theorem append (h : Linked s es s') (h' : Linked s' es' s'') : Linked s (es ++ es') s'' := by
  induction es generalizing s with
  | nil => exact h ▸ h'
  | cons ev es ih => exact ⟨h.1, ih h.2⟩

theorem split (h : Linked s (es ++ es') s'') : ∃ s', Linked s es s' ∧ Linked s' es' s'' := by
  induction es generalizing s with
  | nil => exact ⟨s, rfl, h⟩
  | cons ev es ih =>
      obtain ⟨s', h₁, h₂⟩ := ih h.2
      exact ⟨s', ⟨h.1, h₁⟩, h₂⟩

/-- Where a property that holds at the start and not at the end is lost. -/
theorem crossing {P : σ → Prop} (h : Linked s es s') (hs : P s) (hs' : ¬P s') :
    ∃ ev ∈ es, P ev.before ∧ ¬P ev.after := by
  induction es generalizing s with
  | nil => exact absurd (h ▸ hs) hs'
  | cons ev es ih =>
      by_cases hP : P ev.after
      · obtain ⟨ev', hm, h₁, h₂⟩ := ih h.2 hP
        exact ⟨ev', List.mem_cons_of_mem _ hm, h₁, h₂⟩
      · exact ⟨ev, List.mem_cons_self, h.1 ▸ hs, hP⟩

/-- What the effects between two others lead from and to. -/
theorem between {xs ys zs : List (EffectEvent σ ι ε ρ L)} {a b : EffectEvent σ ι ε ρ L}
    (h : Linked s (xs ++ a :: ys ++ b :: zs) s') : Linked a.after ys b.before := by
  obtain ⟨s₁, h₁, h₂⟩ := h.split
  obtain ⟨s₂, -, h₃⟩ := h₁.split
  rw [h₂.1]
  exact h₃.2

end Linked

/-- Follow a ghost state along the effects. -/
def track {G : Type} (upd : G → (e : ε) → ρ e → G) (g : G) (es : List (EffectEvent σ ι ε ρ L)) : G :=
  es.foldl (fun g ev => upd g ev.eff ev.ans) g

/-- The effects of one thread. -/
def ownEvents (n : Nat) (es : List (EffectEvent σ ι ε ρ L)) : List (EffectEvent σ ι ε ρ L) :=
  es.filter fun ev => ev.thread == n

theorem ownEvents_append (n : Nat) (es es' : List (EffectEvent σ ι ε ρ L)) :
    ownEvents n (es ++ es') = ownEvents n es ++ ownEvents n es' := List.filter_append ..

namespace Run

variable {sys : System σ ι ε ρ α L} {Hyp : Conf σ ι ε ρ α L → Prop} {c₀ c : Conf σ ι ε ρ α L}
  {es : List (EffectEvent σ ι ε ρ L)}

theorem reach (h : Run sys Hyp c₀ es c) : Reach sys Hyp c₀ c := by
  induction h with
  | init h => exact .init h
  | start _ ha h ih => exact .step ih (.start ha) h
  | act _ hn ha h ih => exact .step ih (.act hn ha) h

/-- Every reachable configuration is reached by a run. -/
theorem of_reach (h : Reach sys Hyp c₀ c) : ∃ es, Run sys Hyp c₀ es c := by
  induction h with
  | init h => exact ⟨[], .init h⟩
  | step hr hs h ih =>
      obtain ⟨es, hes⟩ := ih
      cases hs with
      | start ha => exact ⟨es, .start hes ha h⟩
      | act hn ha => exact ⟨_, .act hes hn ha h⟩

theorem linked (h : Run sys Hyp c₀ es c) : Linked c₀.shared es c.shared := by
  induction h with
  | init h => rfl
  | start _ ha h ih => exact ih
  | act _ hn ha h ih => exact ih.append ⟨rfl, rfl⟩

theorem forall_events {P : EffectEvent σ ι ε ρ L → Prop}
    (hact : ∀ {c : Conf σ ι ε ρ α L} {n : Nat} {i : ι} {e : ε} {k : ρ e → Prog ε ρ α} {l l' : L}
      {r : ρ e} {s' : σ}, Reach sys Hyp c₀ c → c.threads[n]? = some ⟨i, .call e k, l⟩ →
      sys.act (c.threads.eraseIdx n) e l c.shared r l' s' → P ⟨n, i, l, e, r, c.shared, s'⟩)
    (h : Run sys Hyp c₀ es c) : ∀ ev ∈ es, P ev := by
  induction h with
  | init h => simp
  | start _ ha h ih => exact ih
  | act hr hn ha h ih =>
      intro ev hev
      rcases List.mem_append.1 hev with hev | hev
      · exact ih ev hev
      · rw [List.mem_singleton.1 hev]
        exact hact hr.reach hn ha

/-- The run up to an effect, and the configuration in which it was performed. -/
theorem at_event {xs ys : List (EffectEvent σ ι ε ρ L)} {ev : EffectEvent σ ι ε ρ L}
    (h : Run sys Hyp c₀ es c) (hes : es = xs ++ ev :: ys) :
    ∃ (c' : Conf σ ι ε ρ α L) (k : ρ ev.eff → Prog ε ρ α) (l' : L), Run sys Hyp c₀ xs c' ∧
      c'.shared = ev.before ∧ c'.threads[ev.thread]? = some ⟨ev.tag, .call ev.eff k, ev.loc⟩ ∧
      sys.act (c'.threads.eraseIdx ev.thread) ev.eff ev.loc ev.before ev.ans l' ev.after := by
  induction h generalizing ys with
  | init h => simp at hes
  | start _ ha h ih => exact ih hes
  | @act es c n i e k l l' r s' hr hn ha h ih =>
      rcases List.eq_nil_or_concat ys with rfl | ⟨ys', last, rfl⟩
      · obtain ⟨rfl, hlast⟩ := List.append_inj' hes rfl
        cases hlast
        exact ⟨c, k, l', hr, rfl, hn, ha⟩
      · have hes' : es ++ [⟨n, i, l, e, r, c.shared, s'⟩] = (xs ++ ev :: ys') ++ [last] := by
          simpa using hes
        exact ih (List.append_inj' hes' rfl).1

/-- The thread that performed an effect is in the pool and serves the same call. -/
theorem tag_of_event (h : Run sys Hyp c₀ es c) :
    ∀ ev ∈ es, ∃ th, c.threads[ev.thread]? = some th ∧ th.tag = ev.tag := by
  induction h with
  | init h => simp
  | start _ ha h ih =>
      intro ev hev
      obtain ⟨th, hth, htag⟩ := ih ev hev
      have hlt := (List.getElem?_eq_some_iff.1 hth).1
      exact ⟨th, by rw [List.getElem?_append_left hlt, hth], htag⟩
  | @act es c n i e k l l' r s' hr hn ha h ih =>
      have hlt : n < c.threads.length := (List.getElem?_eq_some_iff.1 hn).1
      have hself : (c.threads.set n ⟨i, k r, l'⟩)[n]? = some ⟨i, k r, l'⟩ := by
        rw [List.getElem?_set_self hlt]
      intro ev hev
      rcases List.mem_append.1 hev with hev | hev
      · obtain ⟨th, hth, htag⟩ := ih ev hev
        by_cases e : n = ev.thread
        · rw [← e] at hth ⊢
          rw [hn] at hth
          cases hth
          exact ⟨_, hself, htag⟩
        · exact ⟨th, by rw [List.getElem?_set_ne e, hth], htag⟩
      · rw [List.mem_singleton.1 hev]
        exact ⟨_, hself, rfl⟩

/-- **A ghost state along a thread's own effects.**  What the programs guarantee of it by `wp` holds at
any point of any run. -/
theorem tracked {G : Type} (upd : G → (e : ε) → ρ e → G) (g₀ : G) (Q : ι → α → G → Prop)
    (hnone : c₀.threads = []) (hbody : ∀ i, wp (tracking upd) (sys.body i) (Q i) g₀)
    (h : Run sys Hyp c₀ es c) :
    ∀ (n : Nat) (th : Thread ι ε ρ α L), c.threads[n]? = some th →
      wp (tracking upd) th.prog (Q th.tag) (track upd g₀ (ownEvents n es)) := by
  induction h with
  | init h => simp [hnone]
  | @start es c i hr ha h ih =>
      intro m th hth
      rcases getElem?_append_cases hth with ⟨rfl, rfl⟩ | ⟨-, hm⟩
      · -- a new thread has done nothing yet
        have hown : ownEvents c.threads.length es = [] := by
          refine List.filter_eq_nil_iff.2 fun ev hev hn => ?_
          obtain ⟨th, hth, -⟩ := hr.tag_of_event ev hev
          rw [beq_iff_eq.1 hn] at hth
          simp at hth
        rw [hown]
        exact hbody i
      · exact ih m th hm
  | @act es c n i e k l l' r s' hr hn ha h ih =>
      intro m th hth
      rw [ownEvents_append]
      rcases getElem?_set_cases hth with ⟨rfl, rfl⟩ | ⟨hne, hm⟩
      · have hstep := (ih m _ hn).2 r _ rfl
        simpa [ownEvents, track] using hstep
      · have hother := ih m th hm
        simpa [ownEvents, Ne.symm hne] using hother

end Run

/-! ## Schedules -/

namespace Scheduler

variable (S : Scheduler σ ι ε ρ α L)

/-- One move, with the effect it performs. -/
def perform (c : Conf σ ι ε ρ α L) : Choice ι → Option (List (EffectEvent σ ι ε ρ L) × Conf σ ι ε ρ α L)
  | .start i =>
      if S.starts c.shared i then some ([], ⟨c.shared, c.threads ++ [S.sys.spawn i]⟩) else none
  | .run n =>
      match c.threads[n]? with
      | some ⟨i, .call e k, l⟩ =>
          (S.next (c.threads.eraseIdx n) e l c.shared).map fun x =>
            ([⟨n, i, l, e, x.1, c.shared, x.2.2⟩], ⟨x.2.2, c.threads.set n ⟨i, k x.1, x.2.1⟩⟩)
      | _ => none

/-- All moves, each leading to a state that passes the test, with their effects. -/
def record : List (Choice ι) → Conf σ ι ε ρ α L → Option (List (EffectEvent σ ι ε ρ L) × Conf σ ι ε ρ α L)
  | [], c => some ([], c)
  | x :: xs, c =>
      match S.perform c x with
      | some (es, c') => if S.check c' then (record xs c').map fun y => (es ++ y.1, y.2) else none
      | none => none

section

variable {S} (hstarts : ∀ s i, S.starts s i = true → S.sys.admits s i)
  (hnext : ∀ os e l s r l' s', S.next os e l s = some (r, l', s') → S.sys.act os e l s r l' s')
  {Hyp : Conf σ ι ε ρ α L → Prop} {c₀ : Conf σ ι ε ρ α L}

include hstarts hnext

theorem run_of_perform {es es' : List (EffectEvent σ ι ε ρ L)} {c c' : Conf σ ι ε ρ α L} {x : Choice ι}
    (hr : Run S.sys Hyp c₀ es c) (h : S.perform c x = some (es', c')) (hH : Hyp c') :
    Run S.sys Hyp c₀ (es ++ es') c' := by
  cases x with
  | start i =>
      simp only [perform, Option.ite_none_right_eq_some] at h
      obtain ⟨hs, hc⟩ := h
      cases hc
      rw [List.append_nil]
      exact .start hr (hstarts _ i hs) hH
  | run n =>
      simp only [perform] at h
      split at h
      · rename_i i e k l hn
        obtain ⟨⟨r, l', s'⟩, hx, hy⟩ := Option.map_eq_some_iff.1 h
        cases hy
        exact .act hr hn (hnext _ e l _ r l' s' hx) hH
      · cases h

/-- What the scheduler records is a run of its system. -/
theorem run_of_record (hcheck : ∀ c, S.check c = true → Hyp c) :
    ∀ (xs : List (Choice ι)) {es es' : List (EffectEvent σ ι ε ρ L)} {c c' : Conf σ ι ε ρ α L},
      Run S.sys Hyp c₀ es c → S.record xs c = some (es', c') → Run S.sys Hyp c₀ (es ++ es') c'
  | [], es, es', c, c', h, hr => by
      cases hr
      rw [List.append_nil]
      exact h
  | x :: xs, es, es', c, c', h, hr => by
      unfold record at hr
      split at hr
      · rename_i es₁ d hd
        split at hr
        · rename_i hc
          obtain ⟨y, hy, e⟩ := Option.map_eq_some_iff.1 hr
          cases e
          rw [← List.append_assoc]
          exact run_of_record hcheck xs (run_of_perform hstarts hnext h hd (hcheck d hc)) hy
        · cases hr
      · cases hr

end

end Scheduler
