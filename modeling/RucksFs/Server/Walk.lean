import RucksFs.Lib.Prog
import RucksFs.Server.Transactions

/-!
# Following a ghost state along an operation

`following` is the contract of a ghost state that the answers move: obligations on the effects, an update,
and what is known of the answers.  The rules here walk through the shared parts of the operations.
-/

set_option autoImplicit false

namespace RucksFs

open Prog Op

/-- Every effect meets `pre`; the answers move the ghost state by `upd` and satisfy `ans`. -/
def following {G : Type} (pre : Eff → G → Prop) (upd : G → (e : Eff) → e.Res → G)
    (ans : G → (e : Eff) → e.Res → Prop) : Contract Eff Eff.Res G where
  pre := pre
  post e g r g' := g' = upd g e r ∧ ans g e r

section

variable {G α : Type} {pre : Eff → G → Prop} {upd : G → (e : Eff) → e.Res → G}
  {ans : G → (e : Eff) → e.Res → Prop} {E : G → Prop} {g : G}

theorem follow_eff {e : Eff} {Q : e.Res → G → Prop} (hpre : pre e g)
    (h : ∀ r, ans g e r → Q r (upd g e r)) : wpE (following pre upd ans) E (eff e) Q g := by
  unfold eff
  rw [wpE_lift]
  refine ⟨hpre, fun r g' hp => ?_⟩
  rw [hp.1]
  exact h r hp.2

/-- An effect that the ghost state does not follow. -/
theorem follow_skip {e : Eff} {Q : e.Res → G → Prop} (hpre : pre e g) (hs : ∀ r, upd g e r = g)
    (h : ∀ r, Q r g) : wpE (following pre upd ans) E (eff e) Q g :=
  follow_eff hpre fun r _ => by rw [hs]; exact h r

/-- An effect that may fail. -/
theorem follow_try {x : Op α} {e : Eff} {k : e.Res → FsResult α} {Q : α → G → Prop}
    (hx : x.run = .call e fun r => .ret (k r)) (hpre : pre e g)
    (hok : ∀ r a, k r = .ok a → ans g e r → Q a (upd g e r))
    (herr : ∀ r y, k r = .error y → E (upd g e r)) : wpE (following pre upd ans) E x Q g := by
  unfold wpE
  rw [hx]
  refine ⟨hpre, fun r g' hp => ?_⟩
  obtain ⟨rfl, hans⟩ := hp
  rw [wp_ret]
  cases hk : k r with
  | ok a => exact hok r a hk hans
  | error y => exact herr r y hk

theorem follow_getForUpdateDirEntry {p : Inode} {n : Name} {Q : Option DirValue → G → Prop} (hpre : pre (.getForUpdateDirEntry p n) g)
    (hok : ∀ a, ans g (.getForUpdateDirEntry p n) (.ok a) → Q a (upd g (.getForUpdateDirEntry p n) (.ok a)))
    (herr : ∀ x, E (upd g (.getForUpdateDirEntry p n) (.error x))) : wpE (following pre upd ans) E (getForUpdateDirEntry p n) Q g :=
  follow_try (e := .getForUpdateDirEntry p n) (k := fun r => r) rfl hpre (fun r a hr ha => by subst hr; exact hok a ha)
    fun r x hr => by subst hr; exact herr x

theorem follow_getForUpdateInode {i : Inode} {Q : Option InodeValue → G → Prop} (hpre : pre (.getForUpdateInode i) g)
    (hok : ∀ a, ans g (.getForUpdateInode i) (.ok a) → Q a (upd g (.getForUpdateInode i) (.ok a)))
    (herr : ∀ x, E (upd g (.getForUpdateInode i) (.error x))) : wpE (following pre upd ans) E (getForUpdateInode i) Q g :=
  follow_try (e := .getForUpdateInode i) (k := fun r => r) rfl hpre (fun r a hr ha => by subst hr; exact hok a ha)
    fun r x hr => by subst hr; exact herr x

theorem follow_isDirEmpty {d : Inode} {Q : Bool → G → Prop} (hpre : pre (.isDirEmpty d) g)
    (hok : ∀ a, ans g (.isDirEmpty d) (.ok a) → Q a (upd g (.isDirEmpty d) (.ok a)))
    (herr : ∀ x, E (upd g (.isDirEmpty d) (.error x))) : wpE (following pre upd ans) E (isDirEmpty d) Q g :=
  follow_try (e := .isDirEmpty d) (k := fun r => r) rfl hpre (fun r a hr ha => by subst hr; exact hok a ha)
    fun r x hr => by subst hr; exact herr x

theorem follow_commit {Q : Unit → G → Prop} (hpre : pre .commit g)
    (hok : ∀ a, ans g .commit (.ok a) → Q a (upd g .commit (.ok a)))
    (herr : ∀ x, E (upd g .commit (.error x))) : wpE (following pre upd ans) E commit Q g :=
  follow_try (e := .commit) (k := fun r => r) rfl hpre (fun r a hr ha => by subst hr; exact hok a ha)
    fun r x hr => by subst hr; exact herr x

theorem follow_putNextInode {val : Nat} {Q : Unit → G → Prop} (hpre : pre (.putNextInode val) g)
    (hok : ∀ a, ans g (.putNextInode val) (.ok a) → Q a (upd g (.putNextInode val) (.ok a)))
    (herr : ∀ x, E (upd g (.putNextInode val) (.error x))) : wpE (following pre upd ans) E (putNextInode val) Q g :=
  follow_try (e := .putNextInode val) (k := fun r => r) rfl hpre (fun r a hr ha => by subst hr; exact hok a ha)
    fun r x hr => by subst hr; exact herr x

theorem follow_getInode {i : Inode} {Q : Option InodeValue → G → Prop} (hpre : pre (.getInode i) g)
    (hok : ∀ a, ans g (.getInode i) (.ok a) → Q a (upd g (.getInode i) (.ok a)))
    (herr : ∀ x, E (upd g (.getInode i) (.error x))) : wpE (following pre upd ans) E (getInode i) Q g :=
  follow_try (e := .getInode i) (k := fun r => r) rfl hpre (fun r a hr ha => by subst hr; exact hok a ha)
    fun r x hr => by subst hr; exact herr x

theorem follow_scanDeltas {i : Inode} {Q : List DeltaOp → G → Prop} (hpre : pre (.scanDeltas i) g)
    (hok : ∀ a, ans g (.scanDeltas i) (.ok a) → Q a (upd g (.scanDeltas i) (.ok a)))
    (herr : ∀ x, E (upd g (.scanDeltas i) (.error x))) : wpE (following pre upd ans) E (scanDeltas i) Q g :=
  follow_try (e := .scanDeltas i) (k := fun r => r) rfl hpre (fun r a hr ha => by subst hr; exact hok a ha)
    fun r x hr => by subst hr; exact herr x

theorem follow_scanDeltasWithKeys {i : Inode} {Q : List (Nat × DeltaOp) → G → Prop} (hpre : pre (.scanDeltasWithKeys i) g)
    (hok : ∀ a, ans g (.scanDeltasWithKeys i) (.ok a) → Q a (upd g (.scanDeltasWithKeys i) (.ok a)))
    (herr : ∀ x, E (upd g (.scanDeltasWithKeys i) (.error x))) : wpE (following pre upd ans) E (scanDeltasWithKeys i) Q g :=
  follow_try (e := .scanDeltasWithKeys i) (k := fun r => r) rfl hpre (fun r a hr ha => by subst hr; exact hok a ha)
    fun r x hr => by subst hr; exact herr x

theorem follow_orNotFound {o : Option α} {Q : α → G → Prop} (h : ∀ a, o = some a → Q a g) (hE : E g) :
    wpE (following pre upd ans) E (orNotFound o) Q g := by
  cases o with
  | none => exact hE
  | some a => exact h a rfl

theorem follow_withBatch {body : Op α} {Q : α → G → Prop} (hb : pre .beginWrite g)
    (hd : ∀ g, pre .dropBatch g)
    (h : wpE (following pre upd ans) (fun g' => E (upd g' .dropBatch ())) body
      (fun a g' => Q a (upd g' .dropBatch ())) (upd g .beginWrite ())) :
    wpE (following pre upd ans) E (withBatch body) Q g := by
  refine wpE_withBatch hb hd fun g₁ h₁ => ?_
  rw [h₁.1]
  exact wpE_mono (fun a g₂ hq g₃ h₃ => h₃.1 ▸ hq) (fun g₂ he g₃ h₃ => h₃.1 ▸ he) h

/-- An invariant `I` of the attempts that fail. -/
theorem follow_retry {body : Op α} {I : G → Prop} {Q : α → G → Prop} (hb : ∀ g, I g → pre .beginWrite g)
    (hd : ∀ g, pre .dropBatch g) (hE : ∀ g, I g → E g)
    (h : ∀ g, I g → wpE (following pre upd ans) (fun g' => I (upd g' .dropBatch ())) body
      (fun a g' => Q a (upd g' .dropBatch ())) (upd g .beginWrite ())) (n : Nat) (g : G) (hI : I g) :
    wpE (following pre upd ans) E (retry body n) Q g := by
  refine wpE_mono (fun _ _ hq => hq) hE (wpE_retry hb hd (fun _ hI => hI) (fun g hI g₁ h₁ => ?_) n g hI)
  rw [h₁.1]
  exact wpE_mono (fun a g₂ hq g₃ h₃ => h₃.1 ▸ hq) (fun g₂ hi g₃ h₃ => h₃.1 ▸ hi) (h g hI)

end

end RucksFs
