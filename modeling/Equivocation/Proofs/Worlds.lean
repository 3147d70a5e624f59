import Equivocation.Proofs.Preservation
import Mathlib.Logic.Function.Basic

namespace Equivocation.Proofs.Worlds

open Relation History Turns Lives Soundness Preservation Replica

structure World where
  replica : NodeId → Replica
  trace : Trace

namespace World

def initial : World := ⟨fun _ => {}, []⟩

def after (W : World) (seat : Seat) (t : Turn Replica) : World :=
  ⟨Function.update W.replica seat.node t.state, W.trace ++ tag seat.node t.effects⟩

@[simp] theorem trace_after (W : World) (seat : Seat) (t : Turn Replica) :
    (W.after seat t).trace = W.trace ++ tag seat.node t.effects := rfl

@[simp] theorem replica_after (W : World) (seat : Seat) (t : Turn Replica) :
    (W.after seat t).replica seat.node = t.state := Function.update_self _ _ _

theorem replica_after_of_ne (W : World) (seat : Seat) (t : Turn Replica) {n : NodeId}
    (hn : n ≠ seat.node) : (W.after seat t).replica n = W.replica n :=
  Function.update_of_ne hn _ _

end World

/-- Messages have to be sent before they are received, and timers run in started instances only. -/
def Admitted (C : Cluster) (W : World) (seat : Seat) : Input → Prop
  | .start => True
  | .message origin m =>
    ∃ t ∈ C.seats, t.replica = origin ∧ ∃ whom, (t.node, .send whom m) ∈ W.trace
  | .tick => (W.replica seat.node).view ≠ .zero

/-- Instances take turns in any order, messages arrive late, more than once or never. -/
inductive Reachable (rules : Rules) (C : Cluster) : World → Prop
  | initial : Reachable rules C .initial
  | step {W : World} {seat : Seat} {input : Input} : Reachable rules C W → seat ∈ C.seats →
    Admitted C W seat input →
      Reachable rules C (W.after seat (input.react rules seat (W.replica seat.node)))

def Possible (C : Cluster) (T : Trace) : Prop :=
  ∀ t ∈ C.seats, ∀ whom m, (t.node, .send whom m) ∈ T → m.impossibility? t.replica = none

variable {C : Cluster} {T : Trace} {W : World} {rules : Rules} {seat : Seat} {input : Input}
  {before r r' : Replica} {H H' : List SyncInfo} {es : List Effect}

theorem act_possible (ha : Act rules seat before input r H r' es H')
    (hk : seat.policy.keys.me = seat.replica) {whom : Recipients} {m : Message}
    (hm : .send whom m ∈ es) : m.impossibility? seat.replica = none := by
  cases ha with
  | quiet signatures kept idle => exact (idle _ hm).elim
  | tear => cases List.mem_singleton.mp hm
  | certify => cases List.mem_singleton.mp hm
  | propose started led =>
    cases List.mem_singleton.mp hm
    simp [Message.impossibility?, nextBlock, Block.ofContents, started]
  | greet leader started =>
    cases List.mem_singleton.mp hm
    simp [Message.impossibility?, started]
  | commit =>
    obtain ⟨x, hx⟩ := mem_settlement hm
    cases hx
  | vote offered ancestry first allowed covered informed mail =>
    rw [message_of_ballot mail hm]
    simp [Message.impossibility?, Keyring.sign, hk]
  | giveUp started =>
    cases List.mem_singleton.mp hm
    simp [Message.impossibility?, Keyring.sign, hk, started]
  | _ => cases hm

theorem moves_possible {st : Stage} (hk : seat.policy.keys.me = seat.replica)
    (hm : Moves rules seat before input ⟨{ state := r }, H⟩ st) :
    ∀ whom m, .send whom m ∈ st.turn.effects → m.impossibility? seat.replica = none := by
  induction hm with
  | refl => exact fun whom m hm => absurd hm List.not_mem_nil
  | tail _ hact ih =>
    cases hact with
    | act ha =>
      intro whom m hm
      rcases List.mem_append.mp hm with hm | hm
      · exact ih whom m hm
      · exact act_possible ha hk hm

theorem turn_moves (hp : Possible C W.trace) (ha : Admitted C W seat input) :
    ∃ H', Moves rules seat (W.replica seat.node) input
      ⟨{ state := W.replica seat.node }, input.hand⟩
      ⟨input.react rules seat (W.replica seat.node), H'⟩ := by
  refine react_moves _ (fun origin m hi => ?_) (fun hi => ?_)
  · subst hi
    obtain ⟨t, ht, rfl, whom, hm⟩ := ha
    exact hp t ht whom m hm
  · subst hi
    exact ha

theorem reachable_possible (hw : Reachable rules C W) : Possible C W.trace := by
  induction hw with
  | initial => exact fun t ht whom m hm => absurd hm List.not_mem_nil
  | step _ hs ha ih =>
    intro t ht whom m hm
    obtain ⟨H', hmoves⟩ := turn_moves ih ha
    rcases mem_tag hm with hm | ⟨hn, hm⟩
    · exact ih t ht whom m hm
    · obtain rfl := C.apart t ht _ hs hn
      exact moves_possible (C.signs t ht) hmoves whom m hm

theorem turn_not_halted (hw : Reachable rules C W) (ha : Admitted C W seat input) :
    (input.react rules seat (W.replica seat.node)).halt = none := by
  obtain ⟨H', hm⟩ := turn_moves (reachable_possible hw) ha
  exact halt_eq hm

theorem handGenuine_hand (hl : AllWarranted C T) (hi : Received C T input) :
    HandGenuine C T input.hand := by
  intro s hs q hq
  cases input with
  | start =>
    cases List.mem_singleton.mp hs
    cases hq
    exact genuine_genesis
  | tick => cases hs
  | message origin m =>
    obtain ⟨-, t, -, -, whom, hm⟩ := hi
    exact genuine_enclosed hl hm (Input.mem_enclosed hs hq)

theorem moves_midTurn {st : Stage} (hseat : seat ∈ C.seats) (hi : Received C T input)
    (hm : Moves rules seat before input ⟨{ state := r }, H⟩ st)
    (hd : Distinct (T ++ tag seat.node st.turn.effects)) (hs : MidTurn C T seat r H) :
    MidTurn C (T ++ tag seat.node st.turn.effects) seat st.turn.state st.hand := by
  induction hm with
  | refl =>
    rw [tag_nil]
    exact hs
  | tail _ hact ih =>
    cases hact with
    | @act t H H' r es ha =>
      have hi' := hi.mono (subset_tag T seat.node t.effects)
      rw [append_tag] at hd ⊢
      exact act_midTurn ha hseat hi' hd (ih (hd.anti (List.subset_append_left _ _)))

theorem received_of_admitted (hp : Possible C W.trace) (ha : Admitted C W seat input) :
    Received C W.trace input := by
  cases input with
  | start => trivial
  | tick => trivial
  | message origin m =>
    obtain ⟨t, ht, rfl, whom, hm⟩ := ha
    exact ⟨hp t ht whom m hm, t, ht, rfl, whom, hm⟩

/-- Unless two known blocks share a hash, everything happens with its preconditions met. -/
theorem reachable_sound (hw : Reachable rules C W) (hd : Distinct W.trace) :
    AllWarranted C W.trace ∧ ∀ seat ∈ C.seats, Sound C W.trace seat (W.replica seat.node) := by
  induction hw with
  | initial => exact ⟨.nil, fun seat _ => Soundness.initial seat⟩
  | @step W seat input hw hseat ha ih =>
    obtain ⟨hl, hs⟩ := ih (hd.anti (subset_tag _ _ _))
    have hp := reachable_possible hw
    have hi := received_of_admitted hp ha
    obtain ⟨H', hm⟩ := turn_moves hp ha
    have hst := moves_midTurn hseat hi hm hd ⟨hl, hs seat hseat, handGenuine_hand hl hi⟩
    refine ⟨hst.lawful, fun t ht => ?_⟩
    by_cases hn : t.node = seat.node
    · obtain rfl := C.apart t ht seat hseat hn
      rw [World.replica_after]
      exact hst.sound
    · rw [World.replica_after_of_ne _ _ _ hn]
      exact (hs t ht).frame (subset_tag _ _ _) fun w h hv => hv.imp fun _ => mem_tag_of_ne hn

/-- Invariants that build on what is known to be sound: of what happened, of each instance, and of
the certificates at hand in a turn. Acts of other instances do not break that of an instance. -/
theorem reachable_invariant {P : Trace → Prop} {I : Trace → Seat → Replica → Prop}
    {J : Trace → List SyncInfo → Prop} (hnil : P []) (hinit : ∀ seat, I [] seat {})
    (hother : ∀ T seat r n es, seat.node ≠ n → I T seat r → I (T ++ tag n es) seat r)
    (hhand : ∀ T input, P T → Received C T input → J T input.hand)
    (hact : ∀ T T₀ seat before input r H r' es H', Act rules seat before input r H r' es H' →
      seat ∈ C.seats → Received C T input → Distinct (T ++ tag seat.node es) →
      MidTurn C T seat r H → I T₀ seat before → P T → I T seat r → J T H →
        P (T ++ tag seat.node es) ∧ I (T ++ tag seat.node es) seat r' ∧
          J (T ++ tag seat.node es) H')
    (hw : Reachable rules C W) (hd : Distinct W.trace) :
    P W.trace ∧ ∀ seat ∈ C.seats, I W.trace seat (W.replica seat.node) := by
  induction hw with
  | initial => exact ⟨hnil, fun seat _ => hinit seat⟩
  | @step W seat input hw hseat ha ih =>
    have hd₀ : Distinct W.trace := hd.anti (subset_tag _ _ _)
    obtain ⟨hp, hi⟩ := ih hd₀
    obtain ⟨hl, hs⟩ := reachable_sound hw hd₀
    have hreceived := received_of_admitted (reachable_possible hw) ha
    obtain ⟨H', hm⟩ := turn_moves (reachable_possible hw) ha
    have hturn : ∀ st, Moves rules seat (W.replica seat.node) input
        ⟨{ state := W.replica seat.node }, input.hand⟩ st →
        Distinct (W.trace ++ tag seat.node st.turn.effects) →
          P (W.trace ++ tag seat.node st.turn.effects) ∧
            I (W.trace ++ tag seat.node st.turn.effects) seat st.turn.state ∧
              J (W.trace ++ tag seat.node st.turn.effects) st.hand := by
      intro st hm hd
      induction hm with
      | refl =>
        rw [tag_nil]
        exact ⟨hp, hi seat hseat, hhand _ _ hp hreceived⟩
      | tail hm hact' ih =>
        cases hact' with
        | @act t H H' r es ha =>
          rw [append_tag] at hd ⊢
          have hd' := hd.anti (subset_tag _ _ _)
          obtain ⟨hp', hi', hj'⟩ := ih hd'
          exact hact _ _ seat _ input _ _ _ _ _ ha hseat
            (hreceived.mono (subset_tag W.trace seat.node t.effects)) hd
            (moves_midTurn hseat hreceived hm hd'
              ⟨hl, hs seat hseat, handGenuine_hand hl hreceived⟩)
            (hi seat hseat) hp' hi' hj'
    obtain ⟨hp', hi', -⟩ := hturn _ hm hd
    refine ⟨hp', fun t ht => ?_⟩
    by_cases hn : t.node = seat.node
    · obtain rfl := C.apart t ht seat hseat hn
      rw [World.replica_after]
      exact hi'
    · rw [World.replica_after_of_ne _ _ _ hn]
      exact hother _ _ _ _ _ hn (hi t ht)

end Equivocation.Proofs.Worlds
