import Equivocation.Proofs.DrawnMessages
import Mathlib.Logic.Function.Defs

namespace Equivocation.Proofs.Mutation

open Draw Drawing DrawnMessages Ranges

inductive Part where
  | view (v : View)
  | hash (h : Hash)
  | replica (r : ReplicaId)
  | command (bs : List UInt8)
  | signature (s : Signature)
  | certificate (q? : Option QuorumCertificate)
  | sync (s : SyncInfo)

def components : Message → List Part
  | .propose p =>
    [.hash p.block.parent, .certificate p.block.justify, .command p.block.command,
      .view p.block.view, .replica p.block.proposer]
  | .vote v => [.view v.view, .hash v.block, .signature v.signature]
  | .timeout t => [.view t.view, .signature t.signature, .certificate (some t.highQc)]
  | .newView n => [.view n.view, .sync n.sync]

def Allowed (parts : Parts) : Part → Prop
  | .view v => parts.view v
  | .hash _ => True
  | .replica r => parts.replica r
  | .command bs => parts.command bs
  | .signature s => parts.replica s.signer
  | .certificate q? => ∀ q ∈ q?, parts.Qc q
  | .sync s => parts.Sync s

/-- A message of the same kind that differs in one part at most, and that part is as it is asked
for. -/
structure Changed (parts : Parts) (m m' : Message) : Prop where
  kind : m'.kind = m.kind
  part : ∃ (i : Nat) (x : Part), (components m')[i]? = some x ∧ Allowed parts x ∧
    ∀ j, j ≠ i → (components m')[j]? = (components m)[j]?

/-- Views and replicas end one after the last, and a certificate has at most as many signatures as
there are replicas. -/
def limits (ranges : Ranges) : Parts where
  view v := v.toNat ≤ ranges.maxView + 1
  replica r := r.toNat ≤ ranges.replicas + 1
  signatures ss := ss.length ≤ ranges.replicas ∧ ∀ s ∈ ss, s.signer.toNat ≤ ranges.replicas + 1
  command bs := bs.length < 16

variable {ranges : Ranges} {parts : Parts} {E : Crash → Prop} {m m' : Message}

section Components

/-- The components say all there is to a message, since the hash of a block follows from them. -/
theorem components_injective : Function.Injective components := by
  intro m m' h
  cases m with
  | propose p =>
    cases m' with
    | propose p' =>
      obtain ⟨⟨⟨parent, justify, command, view, proposer⟩, _, rfl⟩⟩ := p
      obtain ⟨⟨⟨parent', justify', command', view', proposer'⟩, _, rfl⟩⟩ := p'
      cases h
      rfl
    | _ => simp [components] at h
  | vote v =>
    cases m' with
    | vote v' =>
      obtain ⟨view, block, signature⟩ := v
      obtain ⟨view', block', signature'⟩ := v'
      cases h
      rfl
    | _ => simp [components] at h
  | timeout t =>
    cases m' with
    | timeout t' =>
      obtain ⟨view, signature, highQc⟩ := t
      obtain ⟨view', signature', highQc'⟩ := t'
      cases h
      rfl
    | _ => simp [components] at h
  | newView n =>
    cases m' with
    | newView n' =>
      obtain ⟨view, sync⟩ := n
      obtain ⟨view', sync'⟩ := n'
      cases h
      rfl
    | _ => simp [components] at h

theorem changed_of_set (i : Nat) (x : Part) (hx : Allowed parts x) (hk : m'.kind = m.kind)
    (hi : (components m')[i]? = some x) (he : components m' = (components m).set i x) :
    Changed parts m m' := by
  refine ⟨hk, i, x, hi, hx, fun j hj => ?_⟩
  rw [he, List.getElem?_set_ne hj.symm]

end Components

section Draws

variable (h : Supplied ranges parts E)
include h

theorem draws_changePart (m : Message) : Draws (ranges.changePart m) (Changed parts m) E := by
  cases m with
  | propose p =>
    refine (draws_below (by decide : 0 < 5)).bind fun i _ => ?_
    -- What is drawn is put back among the contents first, so that the block gets a new hash.
    match i with
    | 0 => exact draws_hash.bind fun x _ _ => ⟨changed_of_set 0 (.hash x) trivial rfl rfl rfl, rfl⟩
    | 1 =>
      exact (draws_qc? h).bind fun x hx _ =>
        ⟨changed_of_set 1 (.certificate x) hx rfl rfl rfl, rfl⟩
    | 2 => exact h.command.bind fun x hx _ => ⟨changed_of_set 2 (.command x) hx rfl rfl rfl, rfl⟩
    | 3 => exact h.view.bind fun x hx _ => ⟨changed_of_set 3 (.view x) hx rfl rfl rfl, rfl⟩
    | _ + 4 =>
      exact h.replica.bind fun x hx _ => ⟨changed_of_set 4 (.replica x) hx rfl rfl rfl, rfl⟩
  | vote v =>
    refine (draws_below (by decide : 0 < 3)).bind fun i _ => ?_
    match i with
    | 0 => exact h.view.bind fun x hx => draws_pure (changed_of_set 0 (.view x) hx rfl rfl rfl)
    | 1 =>
      exact draws_hash.bind fun x _ =>
        draws_pure (changed_of_set 1 (.hash x) trivial rfl rfl rfl)
    | _ + 2 =>
      exact (draws_signature h.replica).bind fun x hx =>
        draws_pure (changed_of_set 2 (.signature x) hx rfl rfl rfl)
  | timeout t =>
    refine (draws_below (by decide : 0 < 3)).bind fun i _ => ?_
    match i with
    | 0 => exact h.view.bind fun x hx => draws_pure (changed_of_set 0 (.view x) hx rfl rfl rfl)
    | 1 =>
      exact (draws_signature h.replica).bind fun x hx =>
        draws_pure (changed_of_set 1 (.signature x) hx rfl rfl rfl)
    | _ + 2 =>
      refine (draws_qc h).bind fun x hx => draws_pure ?_
      exact changed_of_set 2 (.certificate (some x)) (fun _ hq => Option.mem_some.mp hq ▸ hx)
        rfl rfl rfl
  | newView n =>
    refine (draws_below (by decide : 0 < 2)).bind fun i _ => ?_
    match i with
    | 0 => exact h.view.bind fun x hx => draws_pure (changed_of_set 0 (.view x) hx rfl rfl rfl)
    | _ + 1 =>
      exact (draws_sync h).bind fun x hx =>
        draws_pure (changed_of_set 1 (.sync x) hx rfl rfl rfl)

end Draws

section Sources

theorem draws_view (hv : ranges.maxView + 2 < 0x10000000000000000) :
    Draws ranges.view (limits ranges).view E := by
  unfold Ranges.view
  rw [if_neg (Nat.not_le_of_lt hv)]
  refine (draws_below (Nat.succ_pos _)).bind fun n hn => draws_pure ?_
  exact Nat.le_trans (Nat.mod_le n _) (Nat.le_of_lt_succ hn)

theorem draws_replica (hr : ranges.replicas + 2 < 0x100000000) :
    Draws ranges.replica (limits ranges).replica E := by
  unfold Ranges.replica
  rw [if_neg (Nat.not_le_of_lt hr)]
  refine (draws_below (Nat.succ_pos _)).bind fun n hn => draws_pure ?_
  exact Nat.le_trans (Nat.mod_le n _) (Nat.le_of_lt_succ hn)

/-- Within the bounds nothing that is drawn is out of range, and no draw breaks off. -/
theorem supplied_limits (hv : ranges.maxView + 2 < 0x10000000000000000)
    (hr : ranges.replicas + 2 < 0x100000000) :
    Supplied ranges (limits ranges) fun _ => False where
  view := draws_view hv
  replica := draws_replica hr
  signatures := by
    have hs := draws_signature (draws_replica (E := fun _ => False) hr)
    refine (draws_below (Nat.succ_pos _)).bind fun n hn => (draws_many hs n).imp fun ss hss => ?_
    exact ⟨hss.1 ▸ Nat.le_of_lt_succ hn, hss.2⟩
  command := draws_command
  genesis := ⟨Nat.zero_le _, Nat.zero_le _, nofun⟩

theorem below_of_zero {width : Width} {n : Nat} {c : Cursor} (hn : 0 < n)
    (h : c.number width = 0) :
    (below width n).run.run c = some (.ok 0, c.advance width.words) := by
  have hz : width.accepts n 0 = true := by simp [Width.accepts]
  rw [below_run hn, Cursor.scaled, h, if_pos hz]
  simp

theorem chance_run (threshold : Nat) (c : Cursor) : (chance threshold).run.run c =
    some (.ok (decide (c.number .double < threshold)), c.advance 2) := rfl

/-- The first number that is drawn decides whether all of the message is drawn anew. -/
theorem mutate_cases (source : MessageSource) (m : Message) :
    ∃ c, c.stream = source.cursor.stream ∧
      (source.mutate m = { source with cursor := c }.next ∨
        source.mutate m = { source with cursor := c }.draw fun ranges => ranges.changePart m) := by
  refine ⟨source.cursor.advance 2, rfl, ?_⟩
  have hrun : ∀ ranges : Ranges, (ranges.mutate m).run.run source.cursor =
      (if decide (source.cursor.number .double < tenth) then ranges.message
        else ranges.changePart m).run.run (source.cursor.advance 2) := by
    intro ranges
    unfold Ranges.mutate
    rw [run_bind, chance_run]
  unfold MessageSource.mutate MessageSource.next MessageSource.draw
  rw [hrun]
  cases decide (source.cursor.number .double < tenth) with
  | true => exact .inl rfl
  | false => exact .inr rfl

variable {source source' : MessageSource} {d : Ranges → Draw Message} {P : Message → Prop}
  {r : Except Crash Message}

theorem ok_of_draw (hd : Draws (d source.ranges) P fun _ => False)
    (h : source.draw d = some (r, source')) : ∃ m, r = .ok m ∧ P m := by
  obtain ⟨drawn, hrun, he⟩ := Option.map_eq_some_iff.mp h
  obtain ⟨m, hm, hp⟩ := hd.ok_of_some hrun
  exact ⟨m, (congrArg Prod.fst he).symm.trans hm, hp⟩

theorem isSome_draw (hd : Draws (d source.ranges) P fun _ => False) (hf : Fair source.cursor) :
    (source.draw d).isSome = true := by
  obtain ⟨drawn, hrun⟩ := hd.returns hf
  exact Option.isSome_iff_exists.mpr ⟨_, Option.map_eq_some_iff.mpr ⟨drawn, hrun, rfl⟩⟩

end Sources

/-- What is drawn is in range, and no number leaves its width on the way. To mutate a message is to
draw another one, or to draw one component of it, which is then in range, and to leave all others as
they are; and there is no more to a message than its components. -/
structure InRange (source : MessageSource) : Prop where
  next : ∀ r source', source.next = some (r, source') →
    ∃ m, r = .ok m ∧ (limits source.ranges).Message m
  mutate : ∀ m r source', source.mutate m = some (r, source') → ∃ m', r = .ok m' ∧
    ((∃ c, { source with cursor := c }.next = source.mutate m ∧
        (limits source.ranges).Message m') ∨
      Changed (limits source.ranges) m m')
  returns : Fair source.cursor → source.next.isSome ∧ ∀ m, (source.mutate m).isSome
  complete : Function.Injective components

/-- Wherever in a stream a message is drawn, it is in range; and one is drawn if the stream is
fair. -/
theorem messages_in_range (source : MessageSource)
    (hv : source.ranges.maxView ≤ 0xFFFFFFFFFFFFFFFF - 2)
    (hr : source.ranges.replicas ≤ 0xFFFFFFFF - 2) : InRange source := by
  have hs := @supplied_limits source.ranges (by omega) (by omega)
  refine ⟨fun r source' => ok_of_draw (draws_message hs), fun m r source' hm => ?_, fun hf => ?_,
    components_injective⟩
  · obtain ⟨c, -, hfresh | hpart⟩ := mutate_cases source m
    · obtain ⟨m', rfl, hp⟩ :=
        @ok_of_draw { source with cursor := c } source' _ _ r (draws_message hs)
          (hfresh.symm.trans hm)
      exact ⟨m', rfl, .inl ⟨c, hfresh.symm, hp⟩⟩
    · obtain ⟨m', rfl, hp⟩ :=
        @ok_of_draw { source with cursor := c } source' _ _ r (draws_changePart hs m)
          (hpart.symm.trans hm)
      exact ⟨m', rfl, .inr hp⟩
  · refine ⟨isSome_draw (draws_message hs) hf, fun m => ?_⟩
    obtain ⟨c, hstream, hfresh | hpart⟩ := mutate_cases source m
    · rw [hfresh]
      exact @isSome_draw { source with cursor := c } _ _ (draws_message hs)
        ((fair_congr hstream).mpr hf)
    · rw [hpart]
      exact @isSome_draw { source with cursor := c } _ _ (draws_changePart hs m)
        ((fair_congr hstream).mpr hf)

/-- Four replicas, and a stream that starts with the greatest words and goes on with zeros. -/
def sinking : MessageSource :=
  ⟨{ replicas := 4 }, ⟨fun n => if n < 2 then 0xFFFFFFFF else 0, 0⟩⟩

theorem fair_sinking : Fair sinking.cursor :=
  fair_of_zeros 2 fun _ hi => if_neg (Nat.not_lt_of_le hi)

def opinion : Message := .vote ⟨.ofNat 3, Block.genesisHash, ⟨.ofNat 2, .fill 7⟩⟩

def abstention : Message := .vote ⟨.ofNat 0, Block.genesisHash, ⟨.ofNat 2, .fill 7⟩⟩

/-- The first number is too great for another message, and all that are drawn then are zero. -/
theorem mutate_opinion : (sinking.ranges.mutate opinion).run.run sinking.cursor =
    some (.ok abstention, sinking.cursor.advance 5) := by
  have hview : sinking.ranges.view.run.run (sinking.cursor.advance 3) =
      some (.ok (.ofNat 0), sinking.cursor.advance 5) := by
    unfold Ranges.view
    rw [if_neg (by decide), run_bind, below_of_zero (by decide) rfl]
    rfl
  have hpart : (sinking.ranges.changePart opinion).run.run (sinking.cursor.advance 2) =
      some (.ok abstention, sinking.cursor.advance 5) := by
    unfold changePart opinion
    dsimp only
    rw [run_bind, below_of_zero (by decide) rfl]
    change (sinking.ranges.view >>= fun view => pure
      (.vote ⟨view, Block.genesisHash, ⟨.ofNat 2, .fill 7⟩⟩) : Draw Message).run.run
        (sinking.cursor.advance 3) = _
    rw [run_bind, hview]
    rfl
  have hfirst : decide (sinking.cursor.number .double < tenth) = false := by decide
  unfold Ranges.mutate
  rw [run_bind, chance_run, hfirst]
  exact hpart

/-- The view of the vote is drawn anew. -/
theorem messages_in_range_opinion :
    ∃ m source, m ≠ opinion ∧ m.view.toNat ≤ 5 ∧ sinking.mutate opinion = some (.ok m, source) ∧
      ((∃ c, { sinking with cursor := c }.next = sinking.mutate opinion ∧
          (limits sinking.ranges).Message m) ∨
        Changed (limits sinking.ranges) opinion m) := by
  have h := messages_in_range sinking (by decide) (by decide)
  obtain ⟨⟨r, source⟩, hr⟩ := Option.isSome_iff_exists.mp ((h.returns fair_sinking).2 opinion)
  obtain ⟨m, rfl, hm⟩ := h.mutate opinion r source hr
  have hdrawn : sinking.mutate opinion =
      some (.ok abstention, { sinking with cursor := sinking.cursor.advance 5 }) :=
    Option.map_eq_some_iff.mpr ⟨_, mutate_opinion, rfl⟩
  obtain ⟨⟨⟩, -⟩ := Prod.mk.inj (Option.some.inj (hr.symm.trans hdrawn))
  exact ⟨_, source, by decide, by decide, hr, hm⟩

end Equivocation.Proofs.Mutation
