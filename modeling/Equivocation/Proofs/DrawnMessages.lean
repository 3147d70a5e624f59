import Equivocation.Proofs.Drawing
import Equivocation.Random.Message

namespace Equivocation.Proofs.DrawnMessages

open Draw Drawing Ranges

/-- What is asked of the parts of a message, wherever in it they are. -/
structure Parts where
  view : View → Prop
  replica : ReplicaId → Prop
  signatures : List Signature → Prop
  command : List UInt8 → Prop

namespace Parts

variable (parts : Parts)

def Qc (q : QuorumCertificate) : Prop := parts.view q.view ∧ parts.signatures q.signatures

def Tc (tc : TimeoutCertificate) : Prop := parts.view tc.view ∧ parts.signatures tc.signatures

def Sync (s : SyncInfo) : Prop := (∀ q ∈ s.qc, parts.Qc q) ∧ ∀ tc ∈ s.tc, parts.Tc tc

def Contents (b : Block) : Prop :=
  (∀ q ∈ b.justify, parts.Qc q) ∧ parts.command b.command ∧ parts.view b.view ∧
    parts.replica b.proposer

def Message : Message → Prop
  | .propose p => parts.Contents p.block
  | .vote v => parts.view v.view ∧ parts.replica v.signature.signer
  | .timeout t => parts.view t.view ∧ parts.replica t.signature.signer ∧ parts.Qc t.highQc
  | .newView n => parts.view n.view ∧ parts.Sync n.sync

end Parts

structure Supplied (ranges : Ranges) (parts : Parts) (E : Crash → Prop) : Prop where
  view : Draws ranges.view parts.view E
  replica : Draws ranges.replica parts.replica E
  signatures : Draws ranges.signatures parts.signatures E
  command : Draws command parts.command E
  genesis : parts.Qc .genesis

variable {ranges : Ranges} {parts : Parts} {E : Crash → Prop} {n : Nat}

theorem draws_hash : Draws hash (fun _ => True) E := by
  refine (draws_chance _).bind fun b _ => ?_
  cases b with
  | true => exact draws_pure trivial
  | false => exact (draws_bytes 32).bind fun _ _ => draws_pure trivial

theorem draws_parent (q? : Option QuorumCertificate) : Draws (parent q?) (fun _ => True) E := by
  cases q? with
  | none => exact draws_hash
  | some q =>
    refine (draws_chance _).bind fun b _ => ?_
    cases b with
    | true => exact draws_pure trivial
    | false => exact draws_hash

theorem draws_command : Draws command (fun bs => bs.length < 16) E := by
  refine (draws_below (by decide : 0 < 16)).bind fun n hn => (draws_bytes n).bind fun bs _ => ?_
  exact draws_pure (bs.2.symm ▸ hn : bs.1.length < 16)

theorem draws_signature {P : ReplicaId → Prop} (h : Draws ranges.replica P E) :
    Draws ranges.signature (fun s => P s.signer) E :=
  (draws_bytes 64).bind fun _ _ => h.bind fun _ hr => draws_pure hr

section Messages

variable (h : Supplied ranges parts E)
include h

theorem draws_qc : Draws ranges.qc parts.Qc E := by
  refine (draws_chance _).bind fun b _ => ?_
  cases b with
  | true => exact draws_pure h.genesis
  | false =>
    exact h.view.bind fun _ hv => draws_hash.bind fun _ _ => h.signatures.bind fun _ hs =>
      draws_pure ⟨hv, hs⟩

theorem draws_qc? : Draws ranges.qc? (fun q? => ∀ q ∈ q?, parts.Qc q) E := by
  refine (draws_chance _).bind fun b _ => ?_
  cases b with
  | true => exact (draws_qc h).bind fun _ hq => draws_pure fun _ hm => Option.mem_some.mp hm ▸ hq
  | false => exact draws_pure nofun

theorem draws_tc : Draws ranges.tc parts.Tc E :=
  h.view.bind fun _ hv => h.signatures.bind fun _ hs => draws_pure ⟨hv, hs⟩

theorem draws_sync : Draws ranges.sync parts.Sync E := by
  refine (draws_qc? h).bind fun _ hq => (draws_chance _).bind fun b _ => ?_
  cases b with
  | true =>
    exact (draws_tc h).bind fun _ ht => draws_pure ⟨hq, fun _ hm => Option.mem_some.mp hm ▸ ht⟩
  | false => exact draws_pure ⟨hq, nofun⟩

theorem draws_block : Draws ranges.block parts.Contents E :=
  (draws_qc? h).bind fun _ hq => (draws_parent _).bind fun _ _ => h.command.bind fun _ hc =>
    h.view.bind fun _ hv => h.replica.bind fun _ hr => draws_pure ⟨hq, hc, hv, hr⟩

theorem draws_message : Draws ranges.message parts.Message E := by
  refine (draws_below (by decide : 0 < 4)).bind fun kind _ => ?_
  match kind with
  | 0 => exact (draws_block h).bind fun _ hb => draws_pure hb
  | 1 =>
    exact h.view.bind fun _ hv => draws_hash.bind fun _ _ =>
      (draws_signature h.replica).bind fun _ hs => draws_pure ⟨hv, hs⟩
  | 2 =>
    exact h.view.bind fun _ hv => (draws_signature h.replica).bind fun _ hs =>
      (draws_qc h).bind fun _ hq => draws_pure ⟨hv, hs, hq⟩
  | _ + 3 =>
    exact h.view.bind fun _ hv => (draws_sync h).bind fun _ hs => draws_pure ⟨hv, hs⟩

end Messages

end Equivocation.Proofs.DrawnMessages
