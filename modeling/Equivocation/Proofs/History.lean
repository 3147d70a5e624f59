import Equivocation.Collector
import Equivocation.Protocol
import Mathlib.Data.List.Induction
import Mathlib.Logic.Relation

namespace Equivocation.Proofs.History

open Relation

/-- The instances of a run and the replicas they know. Twins have different nodes. -/
structure Cluster where
  seats : List Seat
  replicas : List ReplicaId
  knows : ∀ s ∈ seats, s.replicas = replicas
  signs : ∀ s ∈ seats, s.policy.keys.me = s.replica
  apart : ∀ s ∈ seats, ∀ t ∈ seats, s.node = t.node → s = t

abbrev Trace := List (NodeId × Effect)

def tag (n : NodeId) (es : List Effect) : Trace := es.map (n, ·)

variable (C : Cluster) (T : Trace)

def Known (b : Block) : Prop := b = .genesis ∨ ∃ n whom, (n, .send whom (.propose ⟨b⟩)) ∈ T

def Distinct : Prop := ∀ a b, Known T a → Known T b → a.hash = b.hash → a = b

def Voted (n : NodeId) (v : View) (h : Hash) : Prop := ∃ s, (n, .publish (.vote ⟨v, h, s⟩)) ∈ T

/-- Something holds of a quorum of replicas, of each at one of its nodes. -/
def Quorum (P : Seat → Prop) : Prop :=
  ∃ rs : List ReplicaId, rs.Nodup ∧ rs ⊆ C.replicas ∧ quorumSize C.replicas.length ≤ rs.length ∧
    ∀ r ∈ rs, ∃ s ∈ C.seats, s.replica = r ∧ P s

def Elected (v : View) (h : Hash) : Prop := Quorum C fun s => Voted T s.node v h

def Certified (b : Block) : Prop := b = .genesis ∨ Known T b ∧ Elected C T b.view b.hash

def Genuine (q : QuorumCertificate) : Prop :=
  ∃ b, Certified C T b ∧ q.block = b.hash ∧ q.view = b.view

/-- `p` is the parent of `b`, which carries a certificate for it. -/
def Link (b p : Block) : Prop :=
  Known T p ∧ b.parent = p.hash ∧ ∃ q, b.justify = some q ∧ q.block = p.hash

/-- The genesis block, and the blocks that have a child. -/
def Inner (b : Block) : Prop := b = .genesis ∨ ∃ d, Known T d ∧ Link T d b

abbrev Descends : Block → Block → Prop := ReflTransGen (Link T)

def Covered (h : Hash) (w : View) : Prop :=
  ∃ b p, Known T b ∧ b.hash = h ∧ Link T b p ∧ ∀ q, p.justify = some q → q.view ≤ w

/-- A block holds back the votes of the node: it covers its earlier votes, and a new vote is for a
descendant of it or for the child of a block that is no older. -/
def Restrained (n : NodeId) (b : Block) : Prop :=
  ∃ l, Inner T l ∧ (∀ w h, Voted T n w h → Covered T h l.view) ∧
    (Descends T b l ∨ ∃ p, Link T b p ∧ l.view ≤ p.view)

/-- What has to have happened before a node does something. -/
def Warranted (n : NodeId) : Effect → Prop
  | .publish (.collectQc q) => Genuine C T q
  | .publish (.vote v) =>
    ∃ b, Known T b ∧ v.block = b.hash ∧ v.view = b.view ∧ Descends T b .genesis ∧
      (∀ w h, Voted T n w h → w < b.view) ∧ Restrained T n b
  | .send _ (.propose p) =>
    ∃ q, p.block.justify = some q ∧ p.block.parent = q.block ∧ p.block.view ≠ .zero ∧
      Genuine C T q ∧ q.view.next ≤ p.block.view
  | .send _ (.vote v) => (n, .publish (.vote v)) ∈ T
  | .send _ (.timeout m) => Genuine C T m.highQc
  | .send _ (.newView m) => ∀ q, m.sync.qc = some q → Genuine C T q
  | _ => True

def AllWarranted : Prop := ∀ p n e q, T = p ++ (n, e) :: q → Warranted C p n e

variable {C} {T} {T' : Trace} {a b c p : Block} {n : NodeId} {e : Effect} {v w : View} {h : Hash}

theorem known_genesis : Known T .genesis := .inl rfl

theorem certified_genesis : Certified C T .genesis := .inl rfl

theorem genuine_genesis : Genuine C T .genesis := ⟨.genesis, certified_genesis, rfl, rfl⟩

theorem Certified.known (hb : Certified C T b) : Known T b := hb.elim .inl And.left

theorem Quorum.imp {P Q : Seat → Prop} (h : Quorum C P) (hpq : ∀ s, P s → Q s) : Quorum C Q := by
  obtain ⟨rs, hn, hs, hl, hr⟩ := h
  refine ⟨rs, hn, hs, hl, fun r hm => ?_⟩
  obtain ⟨s, hseat, he, hp⟩ := hr r hm
  exact ⟨s, hseat, he, hpq s hp⟩

section Growth

variable (ht : T ⊆ T')
include ht

theorem Known.mono (hb : Known T b) : Known T' b :=
  hb.imp_right fun ⟨n, whom, hm⟩ => ⟨n, whom, ht hm⟩

theorem Distinct.anti (hd : Distinct T') : Distinct T :=
  fun a b ha hb => hd a b (ha.mono ht) (hb.mono ht)

theorem Voted.mono (hv : Voted T n v h) : Voted T' n v h := hv.imp fun _ hm => ht hm

theorem Elected.mono (he : Elected C T v h) : Elected C T' v h := he.imp fun _ hv => hv.mono ht

theorem Certified.mono (hb : Certified C T b) : Certified C T' b :=
  hb.imp_right fun ⟨hk, he⟩ => ⟨hk.mono ht, he.mono ht⟩

theorem Genuine.mono {q : QuorumCertificate} (hq : Genuine C T q) : Genuine C T' q :=
  hq.imp fun _ ⟨hb, he⟩ => ⟨hb.mono ht, he⟩

theorem Link.mono (hl : Link T b p) : Link T' b p := ⟨hl.1.mono ht, hl.2⟩

theorem Inner.mono (hb : Inner T b) : Inner T' b :=
  hb.imp_right fun ⟨d, hd, hl⟩ => ⟨d, hd.mono ht, hl.mono ht⟩

theorem Descends.mono (hd : Descends T a b) : Descends T' a b :=
  hd.lift id fun _ _ hl => hl.mono ht

theorem Covered.mono (hc : Covered T h w) : Covered T' h w := by
  obtain ⟨b, p, hb, he, hl, hw⟩ := hc
  exact ⟨b, p, hb.mono ht, he, hl.mono ht, hw⟩

end Growth

theorem AllWarranted.nil : AllWarranted C [] := by
  intro p n e q h
  simp at h

theorem AllWarranted.front (hl : AllWarranted C (T ++ T')) : AllWarranted C T := by
  rintro p n e q rfl
  exact hl p n e (q ++ T') (by simp)

theorem AllWarranted.concat (hl : AllWarranted C T) (hw : Warranted C T n e) :
    AllWarranted C (T ++ [(n, e)]) := by
  intro p m f q h
  rcases List.eq_nil_or_concat q with rfl | ⟨q', x, rfl⟩
  · obtain ⟨rfl, hx⟩ := List.append_inj' h rfl
    cases hx
    exact hw
  · rw [List.concat_eq_append, ← List.cons_append, ← List.append_assoc] at h
    exact hl p m f q' (List.append_inj' h rfl).1

/-- Effects are added one by one, each after the ones before it. -/
theorem AllWarranted.extend {es : List Effect} (hl : AllWarranted C T)
    (hw : ∀ fs e gs, es = fs ++ e :: gs → Warranted C (T ++ tag n fs) n e) :
    AllWarranted C (T ++ tag n es) := by
  induction es using List.reverseRecOn with
  | nil => simpa [tag] using hl
  | append_singleton es e ih =>
    have hi := ih fun fs f gs hf => hw fs f (gs ++ [e]) (by rw [hf]; simp)
    have hc := hi.concat (hw es e [] rfl)
    simpa [tag] using hc

theorem AllWarranted.warranted (hl : AllWarranted C T) (hm : (n, e) ∈ T) :
    ∃ p q, T = p ++ (n, e) :: q ∧ Warranted C p n e := by
  obtain ⟨p, q, rfl⟩ := List.append_of_mem hm
  exact ⟨p, q, rfl, hl p n e q rfl⟩

end Equivocation.Proofs.History
