import Equivocation.Proofs.Agreement
import Equivocation.Proofs.Steps

namespace Equivocation.Proofs.Attribution

open History Turns Lives Worlds States Simulation Deployment Agreement Routing Steps

def Impossible (origin : ReplicaId) : Message → Prop
  | .propose p =>
    p.block.view = .zero ∨ p.block.justify = none ∨
      (∃ q, p.block.justify = some q ∧ p.block.parent ≠ q.block) ∨ p.block.proposer ≠ origin
  | .vote v => v.signature.signer ≠ origin
  | .timeout m => m.view = .zero ∨ m.signature.signer ≠ origin
  | .newView n => n.view = .zero

structure InjectedReaches (net : Network) (i : Injection) (e : Envelope) (n : NodeId) : Prop where
  sent : e ∈ net.sent
  replaced : e.ordinal = i.ordinal
  delivered : .delivered e.ordinal e.sender n ∈ net.log

variable {C : Cluster} {rules : Rules} {wiring : Wiring} {config : RunConfig}
  {run : Run rules.protocol} {origin : ReplicaId} {m : Message} {e : Envelope} {n : NodeId}
  {S : List Envelope} {P : Run rules.protocol → Prop} {i : Impossibility}

theorem impossible_iff : Impossible origin m ↔ ∃ i, m.impossibility? origin = some i := by
  rw [← Option.isSome_iff_exists]
  unfold Impossible Message.impossibility?
  cases m with
  | propose p =>
    cases hj : p.block.justify with
    | none => by_cases hz : p.block.view = .zero <;> simp [hj, hz]
    | some q =>
      by_cases hz : p.block.view = .zero <;> by_cases hp : p.block.parent = q.block <;>
        by_cases ho : p.block.proposer = origin <;> simp [hj, hz, hp, ho]
  | vote v => by_cases hs : v.signature.signer = origin <;> simp [hs]
  | timeout m =>
    by_cases hz : m.view = .zero <;> by_cases hs : m.signature.signer = origin <;> simp [hz, hs]
  | newView n => by_cases hz : n.view = .zero <;> simp [hz]

theorem receive_halt (seat : Seat) (r : Replica) (hm : m.impossibility? origin = none) :
    (Replica.receive rules seat origin m r).halt = none := by
  obtain ⟨H', h⟩ := receive_moves r hm
  exact halt_eq h

theorem receive_impossible (rules : Rules) (seat : Seat) (r : Replica)
    (hm : m.impossibility? origin = some i) :
    (Replica.receive rules seat origin m r).halt = some (.fault i.fault) ∧
      (Replica.receive rules seat origin m r).sent = [] := by
  unfold Replica.receive
  rw [hm]
  refine ⟨rfl, ?_⟩
  cases m <;> rfl

/-- Whatever an instance has been through, it only sends what a correct replica can. -/
theorem sends_possible {seat : Seat} (hk : seat.policy.keys.me = seat.replica)
    (inputs : List Input) (input : Input) {whom : Recipients}
    (hm : .send whom m ∈ (input.react rules seat (life rules seat inputs)).effects) :
    m.impossibility? seat.replica = none := by
  by_cases hi : Regular input
  · obtain ⟨H', h⟩ := react_moves (life rules seat inputs) hi fun _ => life_started inputs
    exact moves_possible hk h whom m hm
  · simp only [Regular, not_forall] at hi
    obtain ⟨origin, m', rfl, hi⟩ := hi
    obtain ⟨i, hi⟩ := Option.ne_none_iff_exists'.mp hi
    have hs := (receive_impossible rules seat (life rules seat inputs) hi).2
    have hm := mem_turn_sent.mpr hm
    rw [Input.react, hs] at hm
    cases hm

structure Wired (C : Cluster) (wiring : Wiring) : Prop where
  nodes : C.seats.map (·.node) = wiring.nodes.map (·.1)
  ascending : wiring.nodes.Pairwise fun x y => x.1.toNat < y.1.toNat

theorem receivers_ascend (hw : Wired C wiring) (e : Envelope) :
    (receivers wiring e).Pairwise fun m n => m.toNat < n.toNat := by
  unfold receivers
  split
  · exact .nil
  · refine List.Pairwise.filter _ (List.pairwise_map.mpr ?_)
    exact hw.ascending.filter _

theorem deliveries_ascend (hw : Wired C wiring) {es : List Envelope}
    (hn : (es.map (·.ordinal)).Nodup) :
    (es.flatMap (deliveries wiring)).Pairwise fun d d' =>
      d.ordinal = d'.ordinal → d.receiver.toNat < d'.receiver.toNat := by
  refine List.pairwise_flatMap.mpr ⟨fun e _ => ?_, ?_⟩
  · refine List.pairwise_map.mpr ?_
    refine (receivers_ascend hw e).imp ?_
    intro a b h _
    exact h
  · refine (List.pairwise_map.mp hn).imp fun hne d hd d' hd' he => ?_
    obtain ⟨n, -, rfl⟩ := mem_deliveries.mp hd
    obtain ⟨n', -, rfl⟩ := mem_deliveries.mp hd'
    exact absurd he hne

def FaultFree (rules : Rules) (wiring : Wiring) (run : Run rules.protocol) : Prop :=
  ∃ resolved, Orderly wiring resolved run.network ∧ ∀ e ∈ resolved, ∀ n ∈ receivers wiring e,
    (carried wiring e).impossibility? e.origin = none

theorem runInvariant_faultFree : RunInvariant C wiring (FaultFree rules wiring) where
  turn run i input _ hp _ _ := by
    obtain ⟨resolved, ho, hr⟩ := hp
    exact ⟨resolved, ho.posted _ _ _, hr⟩
  frame run run' _ hn hp := by
    unfold FaultFree
    rw [hn]
    exact hp
  batch run _ hp hh := by
    obtain ⟨resolved, ho, hr⟩ := hp
    refine ⟨run.network.sent, ho.batched, fun e he => ?_⟩
    rw [ho.filed] at he
    exact (List.mem_append.mp he).elim (hr e) (hh e)
  read config run hp := hp

def Resolved (rules : Rules) (wiring : Wiring) (S : List Envelope) (run : Run rules.protocol) :
    Prop :=
  Orderly wiring S run.network

theorem stable_resolved : Stable C wiring (Resolved rules wiring S) where
  turn run i input _ hp _ _ := hp.posted _ _ _
  frame run run' _ hn hp := by
    unfold Resolved
    rw [hn]
    exact hp

theorem deliver_stop (hw : Wired C wiring) (hs : CorrectSenders C run) (hn : n ∈ receivers wiring e)
    (hm : (carried wiring e).impossibility? e.origin = some i) :
    ∃ stopped, Run.deliver ⟨e.ordinal, n, e.origin, carried wiring e⟩ run =
        .error (.fault n i.fault, stopped) ∧ stopped.network = run.network := by
  obtain ⟨r, hr, -⟩ := node_of_receiver hn
  have hnode : n ∈ run.instances.map (·.seat.node) := by
    have h := congrArg (List.map Seat.node) hs.seats
    rw [List.map_map, hw.nodes] at h
    have hmem : n ∈ wiring.nodes.map (·.1) := List.mem_map.mpr ⟨(n, r), hr, rfl⟩
    rw [← h] at hmem
    exact hmem
  obtain ⟨j, hj, hjn⟩ := List.mem_map.mp hnode
  unfold Run.deliver Run.act
  dsimp only [Run.remark]
  cases hf : run.instances.find? (·.seat.node = n) with
  | none => exact absurd (decide_eq_true hjn) (List.find?_eq_none.mp hf j hj)
  | some k =>
    obtain ⟨hhalt, hsent⟩ := receive_impossible rules k.seat k.state hm
    dsimp only [Rules.protocol]
    rw [hhalt, hsent]
    exact ⟨_, rfl, rfl⟩

/-- The first delivery that cannot be received without a fault is the first one of its message. -/
theorem first_fault (hw : Wired C wiring) {es : List Envelope} (hn : (es.map (·.ordinal)).Nodup)
    (hr : ¬ ∀ e ∈ es, ∀ n ∈ receivers wiring e,
      (carried wiring e).impossibility? e.origin = none) :
    ∃ before after, ∃ e ∈ es, ∃ n ∈ receivers wiring e, ∃ i,
      es.flatMap (deliveries wiring) =
          before ++ ⟨e.ordinal, n, e.origin, carried wiring e⟩ :: after ∧
        (carried wiring e).impossibility? e.origin = some i ∧
        (∀ d ∈ before, d.message.impossibility? d.origin = none) ∧
        ∀ m ∈ receivers wiring e, n.toNat ≤ m.toNat := by
  have ha := deliveries_ascend hw hn
  cases hf : (es.flatMap (deliveries wiring)).find?
      (fun d => (d.message.impossibility? d.origin).isSome) with
  | none =>
    refine absurd (fun e he n hn => ?_) hr
    have hd := List.find?_eq_none.mp hf _
      (List.mem_flatMap.mpr ⟨e, he, mem_deliveries.mpr ⟨n, hn, rfl⟩⟩)
    simpa using hd
  | some d =>
    obtain ⟨hd, before, after, hsplit, hbefore⟩ := List.find?_eq_some_iff_append.mp hf
    obtain ⟨i, hi⟩ := Option.isSome_iff_exists.mp hd
    have hbefore : ∀ d ∈ before, d.message.impossibility? d.origin = none :=
      fun d hd => by simpa using hbefore d hd
    obtain ⟨e, he, hd⟩ := List.mem_flatMap.mp (List.mem_of_find?_eq_some hf)
    obtain ⟨n, hn, rfl⟩ := mem_deliveries.mp hd
    refine ⟨before, after, e, he, n, hn, i, hsplit, hi, hbefore, fun m hm => ?_⟩
    have hmem := List.mem_flatMap.mpr ⟨e, he, mem_deliveries.mpr ⟨m, hm, rfl⟩⟩
    rw [hsplit] at hmem ha
    rcases List.mem_append.mp hmem with hmem | hmem
    · have h := hbefore _ hmem
      rw [hi] at h
      cases h
    · rcases List.mem_cons.mp hmem with hmem | hmem
      · exact Nat.le_of_eq (congrArg (fun d : Delivery => d.receiver.toNat) hmem.symm)
      · exact Nat.le_of_lt
          ((List.pairwise_cons.mp (List.pairwise_append.mp ha).2.1).1 _ hmem rfl)

/-- A fault at the first node that an impossible injected message reaches. -/
def Faulty (wiring : Wiring) (stop : RunError × Run rules.protocol) : Prop :=
  ∃ i e n imp, wiring.injection = some i ∧ InjectedReaches stop.2.network i e n ∧
    i.replacement.impossibility? e.origin = some imp ∧ stop.1 = .fault n imp.fault ∧
      ∀ m, InjectedReaches stop.2.network i e m → n.toNat ≤ m.toNat

theorem injected_of_impossible (hs : CorrectSenders C run) (he : e ∈ run.network.sent)
    (hm : (carried wiring e).impossibility? e.origin = some i) :
    ∃ j, wiring.injection = some j ∧ e.ordinal = j.ordinal ∧ carried wiring e = j.replacement := by
  obtain hc | ⟨j, hj, ho, hc⟩ := carried_cases wiring e
  · have h := hs.possible e he
    rw [← hc, hm] at h
    cases h
  · exact ⟨j, hj, ho.symm, hc⟩

theorem tick_fault (hw : Wired C wiring) (h : StartedRun C [] (FaultFree rules wiring) run)
    (hr : ¬ Harmless wiring run.network) :
    ∃ stop, Run.tick config wiring run = .error stop ∧ Faulty wiring stop := by
  obtain ⟨resolved, ho, -⟩ := h.kept
  have hnodup : (run.network.pending.map (·.ordinal)).Nodup := by
    have hs := ho.numbered ▸ List.nodup_range'
    rw [ho.filed, List.map_append] at hs
    exact (List.nodup_append.mp hs).2.1
  obtain ⟨before, after, e, he, n, hn, imp, hsplit, himp, hbefore, hleast⟩ :=
    first_fault hw hnodup hr
  have hsent := h.standing.pending e he
  obtain ⟨i, hi, hord, hc⟩ := injected_of_impossible h.standing hsent himp
  have hb : StartedRun C run.network.sent (Resolved rules wiring run.network.sent)
      { run with
        network := (Network.nextBatch wiring run.network).2
        records := run.records ++ (Network.nextBatch wiring run.network).1.remarks } :=
    ⟨{ h.standing.batch wiring with }, h.started, List.Subset.refl _, ho.batched⟩
  have hok : ∀ d ∈ before, ∀ r : Run rules.protocol,
      StartedRun C run.network.sent (Resolved rules wiring run.network.sent) r →
      ∃ r', Run.deliver d r = .ok r' ∧
        StartedRun C run.network.sent (Resolved rules wiring run.network.sent) r' := by
    intro d hd r hu
    have hp := hbefore d hd
    have hmem : d ∈ run.network.pending.flatMap (deliveries wiring) := by
      rw [hsplit]
      exact List.mem_append_left _ hd
    obtain ⟨e', he', hd'⟩ := List.mem_flatMap.mp hmem
    obtain ⟨n', hn', rfl⟩ := mem_deliveries.mp hd'
    exact deliver_startedRun stable_resolved (h.standing.pending e' he') hn' hp hu
  have hfault : ∀ r : Run rules.protocol,
      StartedRun C run.network.sent (Resolved rules wiring run.network.sent) r →
      ∃ stopped, Run.deliver ⟨e.ordinal, n, e.origin, carried wiring e⟩ r =
          .error (.fault n imp.fault, stopped) ∧
        run.network.sent ⊆ stopped.network.sent ∧
          Orderly wiring run.network.sent stopped.network := by
    intro r hu
    obtain ⟨stopped, hs, hnet⟩ := deliver_stop hw hu.standing hn himp
    exact ⟨stopped, hs, hnet ▸ hu.since, hnet ▸ hu.kept⟩
  obtain ⟨stopped, hstop, hsub, hord'⟩ := sequence_stop after hok hfault hb
  have hreached : ∀ m, InjectedReaches stopped.network i e m ↔ m ∈ receivers wiring e := by
    intro m
    constructor
    · rintro ⟨-, -, hd⟩
      obtain ⟨e', he', ho', -, hm⟩ := (hord'.logged _ _ _).mp hd
      rwa [ho.ordinal_inj he' hsent ho'] at hm
    · exact fun hm => ⟨hsub hsent, hord, (hord'.logged _ _ _).mpr ⟨e, hsent, rfl, rfl, hm⟩⟩
  refine ⟨(.fault n imp.fault, stopped), ?_, i, e, n, imp, hi, (hreached n).mpr hn, hc ▸ himp,
    rfl, fun m hm => hleast m ((hreached m).mp hm)⟩
  unfold Run.tick
  dsimp only
  rw [deliveries_nextBatch, hsplit, hstop]

theorem assignNodes_ascend {n t : Nat} (hn : n + t < 0x100000000) :
    (assignNodes n t).Pairwise fun x y => x.1.toNat < y.1.toNat := by
  have hlen := length_nodeReplicas n t
  unfold assignNodes
  rw [List.pairwise_map, List.pairwise_iff_getElem]
  intro i j hi hj hij
  rw [List.length_zipIdx] at hi hj
  simp only [List.getElem_zipIdx, NodeId.toNat_ofNat]
  omega

section Runs

variable (scheme : Scheme) (s : Scenario) (config : RunConfig)

theorem cluster_wired (hv : config.validate s = .ok ()) :
    Wired (cluster scheme s config hv) (States.wiring s config) where
  nodes := List.map_map
  ascending := assignNodes_ascend (validate_spec hv).2.2

theorem opened_faultFree (rules : Rules) :
    FaultFree rules (States.wiring s config) (opened scheme s config rules.protocol) :=
  ⟨[], orderly_empty _, by simp⟩

theorem complete_cases (hv : config.validate s = .ok ()) (hd : config.deadlineMillis = none)
    (rules : Rules) :
    (∀ run ∈ states scheme s config rules.protocol, FaultFree rules (States.wiring s config) run) ∧
        (∃ last, (opened scheme s config rules.protocol).complete config (States.wiring s config) =
          .ok last) ∨
      ∃ stop, (opened scheme s config rules.protocol).complete config (States.wiring s config) =
        .error stop ∧ Faulty (States.wiring s config) stop := by
  have hw := cluster_wired scheme s config hv
  have ht : Ticking (cluster scheme s config hv) config (States.wiring s config)
      (FaultFree rules (States.wiring s config)) (Faulty (States.wiring s config)) := by
    intro run h
    by_cases hr : Harmless (States.wiring s config) run.network
    · exact .inl (tick_startedRun runInvariant_faultFree hr h)
    · exact .inr (tick_fault hw h hr)
  obtain ⟨hs, hend⟩ | hstop := complete_startedRun runInvariant_faultFree.toStable ht
    (opened_correctSenders hv rules)
    (opened_faultFree scheme s config rules) (opened_created rules)
  · refine .inl ⟨fun run hr => (hs run hr).2, ?_⟩
    obtain ⟨last, hl, -⟩ | hdl := hend
    · exact ⟨last, hl⟩
    · simp [RunConfig.deadlinePassed, hd] at hdl
  · exact .inr hstop

theorem faultFree_strike {rules : Rules} {run : Run rules.protocol} {i : Injection} {e : Envelope}
    {n : NodeId} (hc : FaultFree rules wiring run) (hi : wiring.injection = some i)
    (hs : InjectedReaches run.network i e n) : ¬ Impossible e.origin i.replacement := by
  obtain ⟨resolved, ho, hr⟩ := hc
  obtain ⟨e', he', hord, -, hn⟩ := (ho.logged _ _ _).mp hs.delivered
  have hsent : e' ∈ run.network.sent := by
    rw [ho.filed]
    exact List.mem_append_left _ he'
  obtain rfl := ho.ordinal_inj hsent hs.sent hord
  intro h
  obtain ⟨imp, himp⟩ := impossible_iff.mp h
  have hp := hr e' he' n hn
  rw [carried_injected hi hs.replaced, himp] at hp
  cases hp

/-- A run breaks off with a fault if and only if the injected message reaches a node and is
impossible for the replica whose message it replaces. The fault is then that of the message, at the
first node that it reaches; nothing else makes a run fail, and nothing that an instance sends, after
whatever inputs, halts its receivers. -/
theorem faults_attributed {rules : Rules} (hp : config.protocol = rules.name)
    (hv : config.validate s = .ok ()) (hd : config.deadlineMillis = none) :
    ((∃ n f, (runRegistered scheme s config Registry.builtIn).result = .error (.fault n f)) ↔
      ∃ i, config.injection = some i ∧ ∃ run ∈ states scheme s config rules.protocol,
        ∃ e n, InjectedReaches run.network i e n ∧ Impossible e.origin i.replacement) ∧
    (∀ n f, (runRegistered scheme s config Registry.builtIn).result = .error (.fault n f) →
      ∃ i run e imp, config.injection = some i ∧
        (opened scheme s config rules.protocol).complete config (States.wiring s config) =
          .error (.fault n f, run) ∧
        InjectedReaches run.network i e n ∧
          (∀ m, InjectedReaches run.network i e m → n.toNat ≤ m.toNat) ∧
        i.replacement.impossibility? e.origin = some imp ∧ f = imp.fault) ∧
    (∀ err, (runRegistered scheme s config Registry.builtIn).result = .error err →
      ∃ n f, err = .fault n f) ∧
    (config.injection = none →
      ∃ result, (runRegistered scheme s config Registry.builtIn).result = .ok result) ∧
    ∀ j ∈ (opened scheme s config rules.protocol).instances, ∀ inputs input whom m,
      .send whom m ∈ (Input.react rules j.seat input (life rules j.seat inputs)).effects →
        ∀ seat r, (Replica.receive rules seat j.seat.replica m r).halt = none := by
  have hsends : ∀ j ∈ (opened scheme s config rules.protocol).instances, ∀ inputs input whom m,
      .send whom m ∈ (Input.react rules j.seat input (life rules j.seat inputs)).effects →
        ∀ seat r, (Replica.receive rules seat j.seat.replica m r).halt = none := by
    intro j hj inputs input whom m hm seat r
    have hk :=
      (cluster scheme s config hv).signs j.seat ((opened_correctSenders hv rules).mem_seats hj)
    exact receive_halt seat r (sends_possible hk inputs input hm)
  have heq : (runRegistered scheme s config Registry.builtIn).result =
      (Run.outcome config (States.wiring s config) ((opened scheme s config
        rules.protocol).complete config (States.wiring s config))).result := by
    unfold runRegistered
    rw [hp, builtIn_get?]
    exact congrArg RunOutcome.result (runProtocol_eq scheme rules.protocol hv)
  rw [heq]
  obtain ⟨hclear, last, hl⟩ | ⟨stop, hstop, i, e, n, imp, hi, hs, himp, hf, hleast⟩ :=
    complete_cases scheme s config hv hd rules
  · rw [hl]
    refine ⟨⟨?_, ?_⟩, ?_, ?_, fun _ => ⟨_, rfl⟩, hsends⟩
    · rintro ⟨n, f, h⟩
      cases h
    · rintro ⟨i, hi, run, hr, e, n, hs, himp⟩
      exact absurd himp (faultFree_strike (hclear run hr) hi hs)
    · intro n f h
      cases h
    · intro err h
      cases h
  · obtain ⟨err, run⟩ := stop
    obtain rfl : err = .fault n imp.fault := hf
    have hmem : run ∈ states scheme s config rules.protocol :=
      last_mem_completeStates (.inr ⟨_, hstop⟩)
    rw [hstop]
    refine ⟨⟨fun _ => ⟨i, hi, run, hmem, e, n, hs, impossible_iff.mpr ⟨imp, himp⟩⟩,
      fun _ => ⟨n, imp.fault, rfl⟩⟩, ?_, ?_, fun hn => ?_, hsends⟩
    · intro m f h
      cases h
      exact ⟨i, run, e, imp, hi, rfl, hs, hleast, himp, rfl⟩
    · intro err h
      cases h
      exact ⟨n, imp.fault, rfl⟩
    · cases hn.symm.trans hi

end Runs

def forgedVote : RunConfig :=
  { fourReplicas .simple 7 with
    injection := some ⟨1, .vote ⟨.ofNat 1, Block.genesisHash,
      ⟨.ofNat 4, plainScheme.sign (.ofNat 4) Block.genesisHash⟩⟩⟩ }

theorem faults_attributed_forgedVote :
    ∃ n f, (runRegistered plainScheme openScenario forgedVote Registry.builtIn).result =
        .error (.fault n f) ∧
      ∃ i run e, forgedVote.injection = some i ∧
        (InjectedReaches (Run.network (p := Rules.simple.protocol) run) i e n ∧
          ∀ m, InjectedReaches run.network i e m → n.toNat ≤ m.toNat) ∧
        Impossible e.origin i.replacement := by
  obtain ⟨-, hfirst, hall, -⟩ := @faults_attributed plainScheme openScenario forgedVote .simple rfl
    (by decide) rfl
  have herror : ((runRegistered plainScheme openScenario forgedVote
      Registry.builtIn).result.toOption).isNone = true := by
    decide +kernel
  cases he : (runRegistered plainScheme openScenario forgedVote Registry.builtIn).result with
  | ok result =>
    rw [he] at herror
    cases herror
  | error err =>
    obtain ⟨n, f, rfl⟩ := hall err he
    obtain ⟨i, run, e, imp, hi, -, hs, hleast, himp, -⟩ := hfirst n f he
    exact ⟨n, f, rfl, i, run, e, hi, ⟨hs, hleast⟩, impossible_iff.mpr ⟨imp, himp⟩⟩

end Equivocation.Proofs.Attribution
