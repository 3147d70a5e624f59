import Equivocation.Proofs.Labels

namespace Equivocation.Proofs.Pacemaker

open Relation Replica Validity Adoption Turns Lives Labels

/-- A turn that takes over a timeout certificate and then refuses the quorum certificate that came
along with it. -/
def Torn (rules : Rules) (seat : Seat) (r : Replica) (input : Input) (tc : TimeoutCertificate) :
    Prop :=
  r.highTc ≠ some tc ∧ (input.react rules seat r).state.highTc = some tc ∧
    .remark (Remark.invalidQc.record seat.node) ∈ (input.react rules seat r).effects

structure Paced (seat : Seat) (before : Replica) (t : Turn Replica) : Prop where
  view : before.view ≤ t.state.view
  past : t.state.highQc.view = .zero ∨ t.state.highQc.view.next ≤ t.state.view
  timed : ∀ tc, t.state.highTc = some tc → tc.view.next ≤ t.state.view ∨ before.highTc = some tc ∨
    .remark (Remark.invalidQc.record seat.node) ∈ t.effects

variable {rules : Rules} {seat : Seat} {before r r' : Replica} {input : Input}
  {H H' : List SyncInfo} {es : List Effect} {t : Turn Replica} {s : SyncInfo} {st : Stage}

theorem Paced.frame (h : Paced seat before t) (hv : r.view = t.state.view)
    (hq : r.highQc = t.state.highQc) (hc : r.highTc = t.state.highTc) :
    Paced seat before { t with state := r, effects := t.effects ++ es } where
  view := by
    dsimp only
    rw [hv]
    exact h.view
  past := by
    dsimp only
    rw [hv, hq]
    exact h.past
  timed tc htc := by
    dsimp only at htc ⊢
    rw [hv]
    rw [hc] at htc
    exact (h.timed tc htc).imp_right fun hm => hm.imp_right (List.mem_append_left _)

theorem Paced.take (h : Paced seat before t) {v : View} (hr : t.state.view ≤ r.view)
    (hcert : s.certifiedView? = some v) (hv : v.next ≤ r.view)
    (hq : r.highQc = takeQc t.state.highQc s.qc) (hc : r.highTc = takeTc t.state.highTc s.tc) :
    Paced seat before { t with state := r, effects := t.effects ++ es } where
  view := Nat.le_trans h.view hr
  past := by
    dsimp only
    rw [hq]
    rcases takeQc_cases t.state.highQc s.qc with he | he
    · rw [he]
      exact h.past.imp_right fun hp => Nat.le_trans hp hr
    · exact .inr (Nat.le_trans (View.next_le_next (certifiedView?_le he hcert)) hv)
  timed tc htc := by
    dsimp only at htc ⊢
    rw [hc] at htc
    rcases takeTc_cases t.state.highTc s.tc with he | ⟨tc', he, he', -⟩
    · rw [he] at htc
      rcases h.timed tc htc with hn | hold | hm
      · exact .inl (Nat.le_trans hn hr)
      · exact .inr (.inl hold)
      · exact .inr (.inr (List.mem_append_left _ hm))
    · obtain rfl := Option.some.inj (he'.symm.trans htc)
      exact .inl (Nat.le_trans (View.next_le_next (certifiedView?_tc_le he hcert)) hv)

theorem act_paced (ha : Act rules seat before input t.state H r es H')
    (h : Paced seat before t) :
    Paced seat before { t with state := r, effects := t.effects ++ es } := by
  generalize hr : t.state = r₀ at ha
  cases ha with
  | tear held timed voted newer void =>
    subst hr
    exact ⟨h.view, h.past, fun tc _ => .inr (.inr (by simp))⟩
  | adopt held certified past valid =>
    subst hr
    exact h.take (Nat.le_refl _) certified (View.next_le_of_lt past) rfl rfl
  | climb held certified ahead valid =>
    subst hr
    exact h.take (Nat.le_trans ahead (View.le_next _)) certified (Nat.le_refl _) rfl rfl
  | _ =>
    subst hr
    exact h.frame rfl rfl rfl

theorem moves_paced (hm : Moves rules seat before input ⟨{ state := before }, H⟩ st)
    (hp : before.highQc.view = .zero ∨ before.highQc.view.next ≤ before.view) :
    Paced seat before st.turn := by
  induction hm with
  | refl => exact ⟨Nat.le_refl _, hp, fun tc htc => .inr (.inl htc)⟩
  | tail _ hm ih =>
    cases hm with
    | act ha => exact act_paced ha ih

/-- A timeout certificate is of a past view unless it was taken over in a torn turn. -/
theorem life_paced (inputs : List Input) :
    (life rules seat inputs).highQc.view.next ≤ (life rules seat inputs).view ∧
      ∀ tc, (life rules seat inputs).highTc = some tc →
        tc.view.next ≤ (life rules seat inputs).view ∨
          ∃ xs input ys, inputs = xs ++ input :: ys ∧
            Torn rules seat (life rules seat xs) input tc := by
  induction inputs using List.reverseRecOn with
  | nil =>
    rw [life_nil, start_eq, view_enterView, highQc_enterView]
    refine ⟨Nat.le_refl _, fun tc htc => ?_⟩
    rcases enterView_state seat View.zero.next { state := {} } with he | he
    · rw [he] at htc
      cases htc
    · rw [he] at htc
      cases htc
  | append_singleton inputs input ih =>
    -- A timeout certificate from before the last turn is of a past view, or the turn that it is
    -- left from is among the earlier ones.
    obtain ⟨hqc, htc⟩ := ih
    have hold : ∀ tc, (life rules seat inputs).highTc = some tc →
        tc.view.next ≤ (life rules seat inputs).view ∨ ∃ xs y ys,
          inputs ++ [input] = xs ++ y :: ys ∧ Torn rules seat (life rules seat xs) y tc :=
      fun tc h => (htc tc h).imp_right fun ⟨xs, y, ys, he, ht⟩ =>
        ⟨xs, y, ys ++ [input], by rw [he, List.append_assoc, List.cons_append], ht⟩
    rw [life_concat]
    rcases @react_cases rules seat _ input (life_started inputs) with h | ⟨-, H', hm⟩
    · rw [h]
      exact ⟨hqc, hold⟩
    · have hp := moves_paced hm (.inr hqc)
      have hz := moves_started hm (life_started inputs)
      refine ⟨next_le_of_past hp.past hz, fun tc h => ?_⟩
      have hkept : (life rules seat inputs).highTc = some tc →
          tc.view.next ≤ (input.react rules seat (life rules seat inputs)).state.view ∨
            ∃ xs y ys, inputs ++ [input] = xs ++ y :: ys ∧
              Torn rules seat (life rules seat xs) y tc :=
        fun ho => (hold tc ho).imp_left fun hn => Nat.le_trans hn hp.view
      rcases hp.timed tc h with hn | ho | hr
      · exact .inl hn
      · exact hkept ho
      · by_cases ho : (life rules seat inputs).highTc = some tc
        · exact hkept ho
        · exact .inr ⟨inputs, input, [], rfl, ho, h, hr⟩

/-- Refused certificates leave everything but the signature cache as it was, except that a valid
timeout certificate stays when the quorum certificate is refused. -/
theorem advance_refused (ht : Truthful seat.policy t.state.signatures)
    (hs : ¬ Valid seat.policy t.state.chain s) :
    ∃ signatures, (advance seat s t).state = { t.state with signatures } ∨
      ∃ tc q, s.tc = some tc ∧ ValidTc seat.policy tc ∧ s.qc = some q ∧
        ¬ ValidQc seat.policy t.state.chain q ∧
        (∀ high, t.state.highTc = some high → high.view < tc.view) ∧
        (advance seat s t).state = { t.state with signatures, highTc := some tc } := by
  have hspec := advance_spec seat s t
  generalize advance seat s t = t' at hspec
  cases hspec with
  | refused signatures kept timed void => exact ⟨signatures, .inl rfl⟩
  | torn signatures kept voted void valid =>
    refine ⟨signatures, ?_⟩
    rcases takeTc_cases t.state.highTc s.tc with he | ⟨tc, htc, he, hn⟩
    · left
      dsimp only [say, Turn.remark, Turn.emit, Turn.modify]
      rw [he]
    · refine .inr ⟨tc, _, htc, valid ht tc htc, voted, void, hn, ?_⟩
      dsimp only [say, Turn.remark, Turn.emit, Turn.modify]
      rw [he]
  | taken signatures kept valid => exact absurd (valid ht) hs

/-- The current view is after that of the highest quorum certificate. It is also after that of the
highest timeout certificate, unless that one is left from a torn turn. At any point of a turn,
certificates of which one is invalid change nothing, except that a valid timeout certificate stays
when only the quorum certificate is invalid. -/
theorem adoption_all_or_nothing
    (hown : ∀ h, seat.policy.keys.verify (seat.policy.keys.sign h) h = true)
    (inputs : List Input) :
    (life rules seat inputs).highQc.view.next ≤ (life rules seat inputs).view ∧
    (∀ tc, (life rules seat inputs).highTc = some tc →
      tc.view.next ≤ (life rules seat inputs).view ∨
        ∃ xs input ys, inputs = xs ++ input :: ys ∧ Torn rules seat (life rules seat xs) input tc) ∧
    ∀ input t H, Moves rules seat (life rules seat inputs) input
        ⟨{ state := life rules seat inputs }, input.hand⟩ ⟨t, H⟩ →
      ∀ s, ¬ Valid seat.policy t.state.chain s →
        ∃ signatures, (advance seat s t).state = { t.state with signatures } ∨
          ∃ tc q, s.tc = some tc ∧ ValidTc seat.policy tc ∧ s.qc = some q ∧
            ¬ ValidQc seat.policy t.state.chain q ∧
            (∀ high, t.state.highTc = some high → high.view < tc.view) ∧
            (advance seat s t).state = { t.state with signatures, highTc := some tc } := by
  obtain ⟨hqc, htc⟩ := @life_paced rules seat inputs
  refine ⟨hqc, htc, fun input t H hm s hs => advance_refused ?_ hs⟩
  exact moves_truthful hown hm (life_truthful hown inputs)

def aheadTc : TimeoutCertificate := ⟨.ofNat 5, plainSignatures (View.ofNat 5).hash⟩

def unsignedQc : QuorumCertificate := ⟨.ofNat 5, first.hash, []⟩

theorem not_valid_unsignedQc (c : Chain) (tc? : Option TimeoutCertificate) :
    ¬ Valid plainSeat.policy c { qc := some unsignedQc, tc := tc? } := by
  intro h
  have hf : ¬ Endorsed plainSeat.policy unsignedQc.signatures unsignedQc.block := by
    unfold Endorsed
    decide +kernel
  exact hf (h.2 unsignedQc rfl).1.2

theorem adoption_all_or_nothing_second :
    (life .chained plainSeat [proposal first, proposal second]).highQc = firstQc ∧
      firstQc.view.next ≤ (life .chained plainSeat [proposal first, proposal second]).view ∧
      ∃ signatures, (advance plainSeat { qc := some unsignedQc }
        { state := life .chained plainSeat [proposal first, proposal second] }).state =
          { life .chained plainSeat [proposal first, proposal second] with signatures } := by
  obtain ⟨hqc, -, hadvance⟩ :=
    @adoption_all_or_nothing .chained plainSeat plainSeat_verifies [proposal first, proposal second]
  have hq : (life .chained plainSeat [proposal first, proposal second]).highQc = firstQc := by
    decide +kernel
  rw [hq] at hqc
  refine ⟨hq, hqc, ?_⟩
  obtain ⟨signatures, h | ⟨tc, q, htc, -⟩⟩ :=
    hadvance .tick _ [] .refl { qc := some unsignedQc } (not_valid_unsignedQc _ _)
  · exact ⟨signatures, h⟩
  · cases htc

/-- The timeout certificate stays behind, of a view that the instance is not even near. -/
theorem adoption_torn :
    let n : NewView := ⟨.ofNat 1, { qc := some unsignedQc, tc := some aheadTc }⟩
    let torn := life .chained plainSeat [.message (.ofNat 2) (.newView n)]
    ¬ Valid plainSeat.policy (life .chained plainSeat []).chain n.sync ∧
      (life .chained plainSeat []).highTc = none ∧ torn.highTc = some aheadTc ∧
      torn.view = .ofNat 1 ∧ ¬ aheadTc.view < torn.view := by
  refine ⟨not_valid_unsignedQc _ _, ?_⟩
  decide +kernel

end Equivocation.Proofs.Pacemaker
