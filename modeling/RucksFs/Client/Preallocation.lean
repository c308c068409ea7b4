import RucksFs.Client.Sizes
import RucksFs.Data.RawDisk

/-!
# Preallocation next to writes

`FuseClient::fallocate` asks for the size of the file and, when it is too small, sets the size.  Writes of the
same file come in between.  When the file has grown past the new end by then, setting the size truncates it: the
end of a finished write is cut off and its bytes are zeroed (`fallocate_truncates`).

* `ExtendsOnly` — no `fallocate` commits its new size to a file that has grown past it.
* `fallocate_keeps_writes` — under this condition, in any interleaving, sizes only grow, every finished call keeps
  what it was promised, and no step of a `fallocate` touches the data.
-/

set_option autoImplicit false

namespace RucksFs

open Prog

section

variable {δ : Type}

/-- Writes of file `i`, and `fallocate` with mode 0. -/
def FileCall.OnFile (i : Nat) : FileCall → Prop
  | .write _ j _ _ _ => j = i
  | .fallocate _ j _ _ mode => j = i ∧ mode = 0

instance (i : Nat) : (t : FileCall) → Decidable (t.OnFile i)
  | .write _ j _ _ _ => inferInstanceAs (Decidable (j = i))
  | .fallocate _ j _ _ mode => inferInstanceAs (Decidable (j = i ∧ mode = 0))

/-- A `fallocate` that is about to commit finds a file that is no longer than what it sets. -/
def Extends (i : Nat) (s : Server) (th : ClientThread) : Prop :=
  match th.tag, th.nextEff with
  | .fallocate _ _ off len _, some (.server .commit) => ((s.db.inode i).map (·.size)).getD 0 ≤ off + len
  | _, _ => True

instance (i : Nat) (s : Server) (th : ClientThread) : Decidable (Extends i s th) := by
  unfold Extends
  split <;> infer_instance

def ExtendsOnly (i : Nat) (c : ClientConf δ) : Prop := Pool (Extends i c.shared.server) c.threads

instance (i : Nat) (c : ClientConf δ) : Decidable (ExtendsOnly i c) :=
  inferInstanceAs (Decidable (Pool (Extends i c.shared.server) c.threads))

/-- The end of a `fallocate` with mode 0 that has returned `Ok`. -/
def allocatedEnd (th : ClientThread) : Option Nat :=
  match th.tag, th.result with
  | .fallocate _ _ off len 0, some (.allocated (.ok _)) => some (off + len)
  | _, _ => none

variable {S : VfsSetup δ} {i : Nat} {iv₀ : InodeValue} {s₀ : Cluster δ} {c : ClientConf δ} {γ : Nat → Progress}

/-- No call stores a smaller size. -/
theorem ExtendsOnly.grows (h : ExtendsOnly i c) {n : Nat} {t : FileCall} {g : Progress} {e : ClientEff} {l : Local}
    {k : e.Res → Prog ClientEff ClientEff.Res FileReply} (hn : c.threads[n]? = some ⟨t, .call e k, l⟩)
    (he : e = .server .commit) (raw : InodeValue) (hraw : c.shared.server.db.inode i = some raw) :
    raw.size ≤ t.resize g raw.size := by
  cases t with
  | write k j off data flags => exact Nat.le_max_left _ _
  | fallocate k j off len mode =>
      subst he
      have hle : ((c.shared.server.db.inode i).map (·.size)).getD 0 ≤ off + len := h n _ hn
      rwa [hraw] at hle

/-- No step of a `fallocate` reaches a data server. -/
theorem data_act {srv : Nat} {t : FileCall} {g : Progress} {os : List ClientThread} {e : ClientEff} {l l' : Local}
    {s s' : Cluster δ} {r : e.Res} (hw : t.isWrite = false) (hpre : (t.contract srv).pre e g)
    (ha : ClientActs S os e l s r l' s') : s'.data = s.data := by
  cases ha with
  | done hfree => rfl
  | failed hf => rfl
  | @client k e _ _ hm =>
      cases e with
      | metadata m => cases hm
      | data srv' dc =>
          obtain ⟨-, -, -, -, -, k', off, data, flags, ht, -⟩ := hpre
          rw [ht] at hw
          cases hw
      | _ => rfl

/-- A run of writes and of `fallocate`. -/
theorem extends_reach {z₀ : Nat} (hinit : SizesKept i z₀ (fun _ => {}) ⟨s₀, []⟩)
    (hr : Reach (clientSystem S fun _ t => t.OnFile i) (ExtendsOnly i) ⟨s₀, []⟩ c) :
    ∃ γ, ((∀ k, (c.shared.cores k).resolveData S.reg i = (s₀.cores k).resolveData S.reg i) ∧ SizesKept i z₀ γ c) ∧
      ∀ m th, c.threads[m]? = some th →
        wp (th.tag.contract ((s₀.cores th.tag.client).resolveData S.reg i)) th.prog th.tag.achieves (γ m) := by
  refine hr.ghost (fun t => t.contract ((s₀.cores t.client).resolveData S.reg i)) FileCall.achieves {}
    (fun γ c => (∀ k, (c.shared.cores k).resolveData S.reg i = (s₀.cores k).resolveData S.reg i) ∧ SizesKept i z₀ γ c)
    rfl ⟨fun _ => rfl, hinit⟩ (fun t => wp_body S.cfg t) ?_ ?_
  · intro γ c t _ hJ hadm _
    refine ⟨hJ.1, hJ.2.start ?_⟩
    cases t with
    | write k j off data flags => exact hadm
    | fallocate k j off len mode => exact hadm.1
  · intro γ c n t e k l l' r s' hr hJ _ hn hpre ha _
    obtain ⟨g', hpost, hkept⟩ := hJ.2.act (hJ.1 _) hn hpre ha fun he raw hraw => hr.hyp.grows hn he raw hraw
    exact ⟨g', hpost, routes_act hJ.1 hpre ha, hkept⟩

/-- A `fallocate` that has returned `Ok` has seen the file reach its end, or has reported that end. -/
theorem reached_of_allocatedEnd {srv e : Nat} {th : ClientThread} {g : Progress}
    (hwp : wp (th.tag.contract srv) th.prog th.tag.achieves g) (he : allocatedEnd th = some e) :
    e ≤ g.floor ∨ g.reported = some e := by
  obtain ⟨t, p, l⟩ := th
  cases p with
  | call e k =>
      cases t with
      | write => cases he
      | fallocate k i off len mode => cases mode <;> cases he
  | ret a =>
      match t, a, hwp, he with
      | .fallocate k i off len 0, .allocated (.ok _), hwp, he =>
          cases he
          exact hwp.2 rfl

/-- **Preallocation next to writes.**  Any number of writes of file `i` and of `fallocate` calls with mode 0 run at
once, and no `fallocate` commits its size to a file that has grown past it.  Then the stored size reaches the end of
every write and of every `fallocate` that has returned `Ok`, and no step of a `fallocate` makes it smaller or
touches a byte of the data. -/
theorem fallocate_keeps_writes (S : VfsSetup δ) {i : Nat} {iv₀ : InodeValue} {s₀ : Cluster δ} {c : ClientConf δ}
    (hstored : s₀.server.db.inode i = some iv₀)
    (hcached : ∀ v, s₀.server.cache.find i = some v → v.size ≤ iv₀.size)
    (hr : Reach (clientSystem S fun _ t => t.OnFile i) (ExtendsOnly i) ⟨s₀, []⟩ c) :
    ∃ iv, c.shared.server.db.inode i = some iv ∧
      (∀ th ∈ c.threads, ∀ e, writtenEnd th = some e → e ≤ iv.size) ∧
      (∀ th ∈ c.threads, ∀ e, allocatedEnd th = some e → e ≤ iv.size) ∧
      ∀ n k off len mode e kont l r l' s', c.threads[n]? = some ⟨.fallocate k i off len mode, .call e kont, l⟩ →
        ClientActs S (c.threads.eraseIdx n) e l c.shared r l' s' →
          s'.data = c.shared.data ∧ ∃ iv', s'.server.db.inode i = some iv' ∧ iv.size ≤ iv'.size := by
  have hinit : SizesKept i iv₀.size (fun _ => {}) (⟨s₀, []⟩ : ClientConf δ) := .init hstored (hcached _)
  obtain ⟨γ, ⟨hroutes, hkept⟩, hwps⟩ := extends_reach hinit hr
  obtain ⟨iv, hiv⟩ := hkept.record
  refine ⟨iv, hiv, fun th hth e he => ?_, fun th hth e he => ?_, ?_⟩
  · obtain ⟨m, hm⟩ := List.mem_iff_getElem?.1 hth
    exact (hkept.calls m th hm).reported hiv (reported_of_writtenEnd (hwps m th hm) he).1
  · obtain ⟨m, hm⟩ := List.mem_iff_getElem?.1 hth
    rcases reached_of_allocatedEnd (hwps m th hm) he with hle | hrep
    · exact Nat.le_trans hle ((hkept.calls m th hm).floor hiv)
    · exact (hkept.calls m th hm).reported hiv hrep
  · intro n k off len mode e kont l r l' s' hn ha
    have hpre := (hwps n _ hn).1
    refine ⟨data_act rfl hpre ha, ?_⟩
    -- with the present size for the initial one, the invariant after the step bounds it from below
    obtain ⟨g', -, hnext⟩ : ∃ g', _ ∧ SizesKept i iv.size (Function.update γ n g')
        (⟨s', c.threads.set n ⟨_, kont r, l'⟩⟩ : ClientConf δ) :=
      (hkept.restart hiv).act (hroutes _) hn hpre ha fun he raw hraw => hr.hyp.grows hn he raw hraw
    obtain ⟨iv', hiv'⟩ := hnext.record
    exact ⟨iv', hiv', (hnext.size hiv').1⟩

end

/-- A `fallocate` of `len` bytes looks at the empty file, a write of 8 bytes comes and goes, then the `fallocate`
takes `n` more steps. -/
def writtenInBetween (len n : Nat) : List (Choice FileCall) :=
  [.start (.fallocate 0 2 0 len 0), .start (.write 1 2 0 [65, 66, 67, 68, 69, 70, 71, 72] 0), .run 0] ++
    List.replicate 10 (.run 1) ++ List.replicate n (.run 0)

theorem fallocate_keeps_writes_longer :
    ∃ c, Reach (clientSystem oneDisk fun _ t => t.OnFile 2) (ExtendsOnly 2) ⟨oneFile, []⟩ c ∧
      c.threads.map writtenEnd = [none, some 8] ∧ ∃ iv, c.shared.server.db.inode 2 = some iv ∧ 12 ≤ iv.size := by
  have hrun : ((clientScheduler oneDisk (fun _ t => t.OnFile 2) (ExtendsOnly 2)).run (writtenInBetween 12 7)
      ⟨oneFile, []⟩).map (fun c => decide (c.threads.map writtenEnd = [none, some 8] ∧
        c.threads.map allocatedEnd = [some 12, none])) = some true := by decide +kernel
  obtain ⟨c, hc, hv⟩ := Option.map_eq_some_iff.1 hrun
  obtain ⟨hends, halloc⟩ := of_decide_eq_true hv
  have hreach := clientScheduler_reach oneDisk _ _ _ (by decide) hc
  have hstored : (oneFile.server.db.inode 2).map (·.size) = some 0 := by decide +kernel
  have hcached : (oneFile.server.cache.find 2).map (·.size) = some 0 := by decide +kernel
  obtain ⟨iv₀, hiv₀, -⟩ := Option.map_eq_some_iff.1 hstored
  have hle : ∀ v, oneFile.server.cache.find 2 = some v → v.size ≤ iv₀.size := by
    intro v hv
    rw [hv] at hcached
    have hz : v.size = 0 := Option.some.inj hcached
    omega
  obtain ⟨iv, hiv, -, hall, -⟩ := fallocate_keeps_writes oneDisk hiv₀ hle hreach
  have hmem : some 12 ∈ c.threads.map allocatedEnd := by
    rw [halloc]
    exact List.mem_cons_self
  obtain ⟨th, hth, he⟩ := List.mem_map.1 hmem
  exact ⟨c, hreach, hends, iv, hiv, hall th hth 12 he⟩

/-- **A write in between is cut off.**  The write has returned `Ok` with its end at 8, the stored size is 4, and bytes
that it has stored are zero. -/
theorem fallocate_truncates :
    ∃ c, Reach (clientSystem oneDisk fun _ t => t.OnFile 2) (fun _ => True) ⟨oneFile, []⟩ c ∧
      c.threads.map writtenEnd = [none, some 8] ∧ (c.shared.server.db.inode 2).map (·.size) = some 4 ∧
      (c.shared.data 0).readAt 2 0 8 = .ok [65, 66, 67, 68, 0, 0, 0, 0] := by
  have hrun : ((clientScheduler oneDisk (fun _ t => t.OnFile 2) (fun _ => True)).run (writtenInBetween 4 9)
      ⟨oneFile, []⟩).map (fun c => decide (c.threads.map writtenEnd = [none, some 8] ∧
        (c.shared.server.db.inode 2).map (·.size) = some 4 ∧
        (c.shared.data 0).readAt 2 0 8 = .ok [65, 66, 67, 68, 0, 0, 0, 0])) = some true := by
    decide +kernel
  obtain ⟨c, hc, hv⟩ := Option.map_eq_some_iff.1 hrun
  exact ⟨c, clientScheduler_reach oneDisk _ _ _ trivial hc, of_decide_eq_true hv⟩

end RucksFs
