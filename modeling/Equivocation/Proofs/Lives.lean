import Equivocation.Proofs.Turns
import Mathlib.Data.List.Induction
import Mathlib.Logic.Basic

namespace Equivocation.Proofs.Lives

open Relation Replica Validity Adoption Turns

def life (rules : Rules) (seat : Seat) (inputs : List Input) : Replica :=
  inputs.foldl (fun r input => (input.react rules seat r).state) (Replica.start seat {}).state

def Regular (input : Input) : Prop :=
  ∀ origin m, input = .message origin m → m.impossibility? origin = none

def certificates (r : Replica) : List QuorumCertificate :=
  r.highQc :: r.chain.blocks.filterMap (·.justify)

variable {rules : Rules} {seat : Seat} {before r r' : Replica} {input : Input}
  {H H' : List SyncInfo} {es : List Effect} {st st' : Stage} {q : QuorumCertificate}

theorem mem_certificates :
    q ∈ certificates r ↔ q = r.highQc ∨ ∃ b ∈ r.chain.blocks, b.justify = some q := by
  unfold certificates
  rw [List.mem_cons, List.mem_filterMap]

theorem checkQc_genesis (seat : Seat) : checkQc seat .genesis {} = (true, {}) := by
  have hg : Chain.initial.get? QuorumCertificate.genesis.block = some .genesis :=
    List.find?_cons_of_pos (decide_eq_true rfl)
  have hi : QuorumCertificate.genesis.isGenesis = true := decide_eq_true ⟨rfl, rfl⟩
  unfold checkQc
  rw [if_pos (by decide)]
  simp [SignatureCache.verifyQc, hi, hg]
  rfl

theorem start_eq (seat : Seat) :
    Replica.start seat {} = enterView seat View.zero.next { state := {} } := by
  have hq : adoptQc seat .genesis { state := {} } = (true, { state := {} }) := by
    unfold adoptQc
    rw [checkQc_genesis]
    rfl
  unfold Replica.start advance
  simp only [Option.map_none, Option.getD_none, Option.map_some, Option.getD_some]
  rw [hq]
  rfl

theorem start_view (seat : Seat) : (Replica.start seat {}).state.view ≠ .zero := by
  rw [start_eq, view_enterView]
  exact View.next_ne_zero _

theorem act_started (ha : Act rules seat before input r H r' es H') (hr : r.view ≠ .zero) :
    r'.view ≠ .zero := by
  cases ha with
  | climb => exact View.next_ne_zero _
  | _ => exact hr

theorem moves_started {st : Stage} (hm : Moves rules seat before input ⟨{ state := r }, H⟩ st)
    (hr : r.view ≠ .zero) : st.turn.state.view ≠ .zero := by
  induction hm with
  | refl => exact hr
  | tail _ hact ih =>
    cases hact with
    | act ha => exact act_started ha ih

theorem next_le_of_past (hp : r.highQc.view = .zero ∨ r.highQc.view.next ≤ r.view)
    (hz : r.view ≠ .zero) : r.highQc.view.next ≤ r.view := by
  refine hp.elim (fun h => ?_) id
  have hne : r.view.toNat ≠ 0 := fun h0 => hz (View.ext h0)
  rw [h, View.le_def, View.toNat_next, View.toNat_zero]
  omega

theorem react_irregular (rules : Rules) (seat : Seat) (r : Replica) (hi : ¬ Regular input) :
    (input.react rules seat r).state = r := by
  simp only [Regular, not_forall] at hi
  obtain ⟨origin, m, rfl, hm⟩ := hi
  obtain ⟨i, hi⟩ := Option.ne_none_iff_exists'.mp hm
  change (receive rules seat origin m r).state = r
  unfold receive
  rw [hi]
  exact announce_state origin m

theorem react_cases (hr : r.view ≠ .zero) :
    (input.react rules seat r).state = r ∨
      Regular input ∧ ∃ H', Moves rules seat r input ⟨{ state := r }, input.hand⟩
        ⟨input.react rules seat r, H'⟩ := by
  by_cases hi : Regular input
  · exact .inr ⟨hi, react_moves r hi fun _ => hr⟩
  · exact .inl (react_irregular rules seat r hi)

theorem moves_invariant {P : Replica → Prop}
    (hact : ∀ r H r' es H', Act rules seat before input r H r' es H' → P r → P r')
    (hm : Moves rules seat before input st st') (hp : P st.turn.state) : P st'.turn.state := by
  induction hm with
  | refl => exact hp
  | tail _ hm ih =>
    cases hm with
    | act ha => exact hact _ _ _ _ _ ha ih

theorem life_nil : life rules seat [] = (Replica.start seat {}).state := by
  rw [life, List.foldl_nil]

theorem life_concat (inputs : List Input) (input : Input) :
    life rules seat (inputs ++ [input]) =
      (input.react rules seat (life rules seat inputs)).state := by
  simp [life]

theorem life_started (inputs : List Input) : (life rules seat inputs).view ≠ .zero := by
  induction inputs using List.reverseRecOn with
  | nil =>
    rw [life_nil]
    exact start_view seat
  | append_singleton inputs input ih =>
    rw [life_concat]
    rcases @react_cases rules seat _ input ih with h | ⟨-, H', hm⟩
    · rw [h]
      exact ih
    · exact moves_started hm ih

theorem life_invariant {P : Replica → Prop} (hinit : P {})
    (hact : ∀ before input r H r' es H', Regular input → Act rules seat before input r H r' es H' →
      P before → P r → P r') (inputs : List Input) : P (life rules seat inputs) := by
  have hturn : ∀ before input st, Regular input → P before →
      Moves rules seat before input ⟨{ state := before }, input.hand⟩ st → P st.turn.state :=
    fun before input st hi hp hm =>
      moves_invariant (fun r H r' es H' ha => hact before input r H r' es H' hi ha hp) hm hp
  induction inputs using List.reverseRecOn with
  | nil =>
    have hi : Regular .start := fun _ _ h => by cases h
    obtain ⟨H', hm⟩ := @react_moves rules seat .start {} hi fun h => by cases h
    have hp := hturn {} .start _ hi hinit hm
    rw [life_nil]
    exact hp
  | append_singleton inputs input ih =>
    rw [life_concat]
    rcases @react_cases rules seat _ input (life_started inputs) with h | ⟨hi, H', hm⟩
    · rw [h]
      exact ih
    · exact hturn _ input _ hi ih hm

section Own

variable (hown : ∀ h, seat.policy.keys.verify (seat.policy.keys.sign h) h = true)
include hown

theorem act_truthful (ha : Act rules seat before input r H r' es H')
    (h : Truthful seat.policy r.signatures) : Truthful seat.policy r'.signatures := by
  cases ha with
  | quiet signatures kept idle => exact kept h
  | vote => exact truthful_sign h (hown _)
  | giveUp => exact truthful_sign h (hown _)
  | _ => exact h

theorem moves_truthful (hm : Moves rules seat before input st st')
    (h : Truthful seat.policy st.turn.state.signatures) :
    Truthful seat.policy st'.turn.state.signatures :=
  @moves_invariant rules seat before input st st' (fun r => Truthful seat.policy r.signatures)
    (fun _ _ _ _ _ => act_truthful hown) hm h

theorem life_truthful (inputs : List Input) :
    Truthful seat.policy (life rules seat inputs).signatures :=
  life_invariant truthful_empty (fun _ _ _ _ _ _ _ _ ha _ => act_truthful hown ha) inputs

end Own

end Equivocation.Proofs.Lives
