import Mathlib.Logic.Relation

/-!
# Reachability in rooted graphs

A graph is a relation `r` with a distinguished `root`.

* `Rooted.not_on_cycle` — with at most one edge into every vertex and none into the root, nothing
  that is reachable from the root lies on a cycle.
* `Rooted.remove`, `Rooted.move` — what stays reachable when leaves are cut off, and when one
  subtree is hung in at another place.
-/

set_option autoImplicit false

namespace Rooted

open Relation

variable {α : Type} {r r' : α → α → Prop} {root : α}

theorem not_on_cycle (hu : ∀ a b c, r a c → r b c → a = b) (hr : ∀ a, ¬r a root) {x : α}
    (hx : ReflTransGen r root x) : ¬TransGen r x x := by
  induction hx with
  | refl =>
      intro hc
      obtain ⟨b, -, hb⟩ := TransGen.tail'_iff.1 hc
      exact hr b hb
  | @tail b c _ hbc ih =>
      -- the edge that closes a cycle through `c` is the one from `b`
      intro hc
      obtain ⟨b', hb', hlast⟩ := TransGen.tail'_iff.1 hc
      obtain rfl := hu _ _ _ hbc hlast
      exact ih (TransGen.head' hbc hb')

/-- A path survives if each of its edges does. -/
theorem path_survives {a x : α} (h : ReflTransGen r a x)
    (hedge : ∀ b c, ReflTransGen r a b → r b c → ReflTransGen r c x → r' b c) :
    ReflTransGen r' a x := by
  induction h with
  | refl => exact .refl
  | @tail b c hab hbc ih =>
      refine (ih fun b' c' h₁ h₂ h₃ => hedge b' c' h₁ h₂ (h₃.tail hbc)).tail ?_
      exact hedge b c hab hbc .refl

section

variable {gone : α → Prop} (hleaf : ∀ b c, gone b → ¬r b c)

include hleaf

theorem eq_of_gone {b x : α} (hb : gone b) (h : ReflTransGen r b x) : b = x := by
  rcases h.cases_head with e | ⟨c, hbc, -⟩
  · exact e
  · exact absurd hbc (hleaf b c hb)

/-- Cutting leaves off. -/
theorem remove (hkeep : ∀ {a b}, r a b → ¬gone b → r' a b) {x : α} (hx : ReflTransGen r root x)
    (hg : ¬gone x) : ReflTransGen r' root x := by
  refine path_survives hx fun b c _ hbc hcx => hkeep hbc fun hc => hg ?_
  exact eq_of_gone hleaf hc hcx ▸ hc

/-- Hanging the subtree of `src`, which does not contain `np`, below `np`, while leaves are cut
off. -/
theorem move {src np : α} (hkeep : ∀ {a b}, r a b → b ≠ src → ¬gone b → r' a b) (hnew : r' np src)
    (hcycle : ¬TransGen r src src) (hnp : ReflTransGen r root np) (hout : ¬ReflTransGen r src np)
    (hgnp : ¬gone np) {x : α} (hx : ReflTransGen r root x) (hg : ¬gone x) :
    ReflTransGen r' root x := by
  have hlive : ∀ {c x}, ReflTransGen r c x → ¬gone x → ¬gone c :=
    fun hcx hg hc => hg (eq_of_gone hleaf hc hcx ▸ hc)
  have houtside : ∀ {x}, ReflTransGen r root x → ¬ReflTransGen r src x → ¬gone x →
      ReflTransGen r' root x := by
    intro x hx hsrc hg
    refine path_survives hx fun b c _ hbc hcx => hkeep hbc ?_ (hlive hcx hg)
    rintro rfl
    exact hsrc hcx
  have hsrc : ReflTransGen r' root src := (houtside hnp hout hgnp).tail hnew
  by_cases hbelow : ReflTransGen r src x
  · refine hsrc.trans (path_survives hbelow fun b c hb hbc hcx => hkeep hbc ?_ (hlive hcx hg))
    rintro rfl
    exact hcycle (TransGen.tail' hb hbc)
  · exact houtside hx hbelow hg

end

end Rooted
