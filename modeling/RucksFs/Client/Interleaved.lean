import RucksFs.Client.Core
import RucksFs.Server.Concurrent

/-!
# Clients that run at once

Any number of clients write to files and preallocate space at once.  A call of `VfsCore` does one thing after
the other: it looks into its tables, sends a data request, waits for the answer.  A metadata request is
carried out by the effects of the server's operation, so that what other calls do can come between any two of
them; row locks keep transactions apart as in `RucksFs.Server.Concurrent`.

* `FileCall.body` — the calls, with their metadata requests carried out.
* `ClientActs` — one effect.
* `clientSystem` — all interleavings over one metadata server and its data servers.
-/

set_option autoImplicit false

namespace RucksFs

/-- An effect of client `client`, or of the metadata server on behalf of a client. -/
inductive ClientEff where
  | vfs (client : Nat) (e : VfsEff)
  | server (e : Eff)

def ClientEff.Res : ClientEff → Type
  | .vfs _ e => e.Res
  | .server e => e.Res

/-- One step. -/
def ClientEff.perform (e : ClientEff) : Prog ClientEff ClientEff.Res e.Res := Prog.perform e

/-- A metadata request is the server's operation. -/
def VfsEff.carryOut (cfg : Config) (client : Nat) : (e : VfsEff) → Prog ClientEff ClientEff.Res e.Res
  | .metadata m => Prog.expand (fun e => ClientEff.perform (.server e)) (m.op cfg).run
  | e => ClientEff.perform (.vfs client e)

/-- The calls that run at once. -/
inductive FileCall where
  | write (client : Nat) (inode offset : Nat) (data : List Byte) (flags : Nat)
  | fallocate (client : Nat) (inode offset length mode : Nat)
  deriving DecidableEq

inductive FileReply where
  | written (r : FsResult Nat)
  | allocated (r : FsResult Unit)

def FileCall.body (cfg : Config) : FileCall → Prog ClientEff ClientEff.Res FileReply
  | .write k i off data flags => do
      return .written (← Prog.expand (VfsEff.carryOut cfg k) (VfsCore.write i off data flags).run)
  | .fallocate k i off len mode => do
      return .allocated (← Prog.expand (VfsEff.carryOut cfg k) (RucksFs.fallocate i off len mode).run)

/-- A metadata server, the state `δ` of the data servers, and the tables of the clients. -/
structure Cluster (δ : Type) where
  server : Server
  data : δ
  cores : Nat → VfsCore := fun _ => {}
  ticks : Nat := 0

namespace Cluster

variable {δ : Type}

/-- What client `k` sees. -/
def view (s : Cluster δ) (k : Nat) : VfsState δ := ⟨s.server, s.data, s.cores k, s.ticks⟩

/-- What is left of `s` after client `k` has made it `v`. -/
def absorb (s : Cluster δ) (k : Nat) (v : VfsState δ) : Cluster δ :=
  ⟨v.server, v.data, Function.update s.cores k v.core, v.ticks⟩

end Cluster

abbrev ClientThread := Thread FileCall ClientEff ClientEff.Res FileReply Local

abbrev ClientConf (δ : Type) := Conf (Cluster δ) FileCall ClientEff ClientEff.Res FileReply Local

/-- Another running transaction holds the row that `e` needs. -/
def lockedBy (os : List ClientThread) (e : Eff) : Bool :=
  match e.needs with
  | some row => os.any fun th => decide (row ∈ th.loc.tx.locks)
  | none => false

def VfsEff.isMetadata : VfsEff → Bool
  | .metadata _ => true
  | _ => false

/-- The effects of the server are those of `Acts`; the effects of a client mean what they mean alone. -/
inductive ClientActs {δ : Type} (S : VfsSetup δ) (os : List ClientThread) :
    (e : ClientEff) → Local → Cluster δ → e.Res → Local → Cluster δ → Prop where
  | done {e : Eff} {l : Local} {s : Cluster δ} (h : lockedBy os e = false) :
      ClientActs S os (.server e) l s (handle S.cfg e (l.tx, s.server)).1 (l.after S.cfg s.server e)
        { s with server := (handle S.cfg e (l.tx, s.server)).2.2 }
  | failed {e : Eff} {l : Local} {s : Cluster δ} {x : FsError} {r : e.Res} (h : e.failure x = some r) :
      ClientActs S os (.server e) l s r (l.afterFailure e) s
  | client {k : Nat} {e : VfsEff} {l : Local} {s : Cluster δ} (h : e.isMetadata = false) :
      ClientActs S os (.vfs k e) l s (VfsState.handle S e (s.view k)).1 l
        (s.absorb k (VfsState.handle S e (s.view k)).2)

/-- All interleavings of the calls that `admits` lets start. -/
def clientSystem {δ : Type} (S : VfsSetup δ) (admits : Cluster δ → FileCall → Prop) :
    System (Cluster δ) FileCall ClientEff ClientEff.Res FileReply Local where
  body := FileCall.body S.cfg
  loc₀ := {}
  admits := admits
  act := ClientActs S

/-! ## A scheduler -/

section

variable {δ : Type} (S : VfsSetup δ)

/-- The failure-free resolution of `ClientActs`. -/
def clientNext (os : List ClientThread) : (e : ClientEff) → Local → Cluster δ →
    Option (e.Res × Local × Cluster δ)
  | .server e, l, s =>
      if lockedBy os e then none
      else some ((handle S.cfg e (l.tx, s.server)).1, l.after S.cfg s.server e,
        { s with server := (handle S.cfg e (l.tx, s.server)).2.2 })
  | .vfs k e, l, s =>
      if e.isMetadata then none
      else some ((VfsState.handle S e (s.view k)).1, l, s.absorb k (VfsState.handle S e (s.view k)).2)

theorem acts_of_clientNext (os : List ClientThread) (e : ClientEff) (l : Local) (s : Cluster δ) (r : e.Res)
    (l' : Local) (s' : Cluster δ) (h : clientNext S os e l s = some (r, l', s')) :
    ClientActs S os e l s r l' s' := by
  cases e with
  | server e =>
      unfold clientNext at h
      dsimp only at h
      split at h
      · cases h
      · rename_i hb
        cases h
        exact .done (by simpa using hb)
  | vfs k e =>
      unfold clientNext at h
      dsimp only at h
      split at h
      · cases h
      · rename_i hm
        cases h
        exact .client (by simpa using hm)

variable (admits : Cluster δ → FileCall → Prop) (Hyp : ClientConf δ → Prop)
  [∀ s t, Decidable (admits s t)] [DecidablePred Hyp]

/-- The scheduler that resolves the choices of `clientSystem` without failures. -/
def clientScheduler : Scheduler (Cluster δ) FileCall ClientEff ClientEff.Res FileReply Local where
  sys := clientSystem S admits
  starts s t := decide (admits s t)
  next := clientNext S
  check c := decide (Hyp c)

theorem clientScheduler_reach {c₀ c : ClientConf δ} (xs : List (Choice FileCall)) (h₀ : Hyp c₀)
    (h : (clientScheduler S admits Hyp).run xs c₀ = some c) : Reach (clientSystem S admits) Hyp c₀ c :=
  Scheduler.reach (S := clientScheduler S admits Hyp)
    (fun s t hs => of_decide_eq_true (p := admits s t) hs) (acts_of_clientNext S)
    (fun c hc => of_decide_eq_true (p := Hyp c) hc) xs (.init h₀) h

end

/-- One metadata server and one data server, which is everybody's default. -/
def oneDisk : VfsSetup (Nat → RawDisk) := .onDisks {} ⟨0, fun _ => none⟩

/-- An empty file, inode 2. -/
def oneFile : Cluster (Nat → RawDisk) where
  server := ((Server.fresh {}).exec {} (.create 1 [97] 0o644 0 0)).2
  data _ := ⟨.empty, 1024⟩

end RucksFs
