import Equivocation.Proofs.Attribution
import Equivocation.Proofs.Handover
import Equivocation.Proofs.Isolation
import Equivocation.Proofs.Substitution

namespace Equivocation.Proofs.Dispatch

open States Routing Timeline Handover

section Lines

variable (w : Wiring) (e : Envelope)

def injectionLine : List Network.Entry :=
  if (Network.replacement? w e).isSome then [.injected e.ordinal (carried w e)] else []

/-- Where a message went: a line for each node that it is for, or a single one if its view is not
scheduled. -/
def fate : List Network.Entry :=
  match w.scenario.schedule? (carried w e).view with
  | none => [.unscheduled e.ordinal (carried w e).view]
  | some schedule => (Network.addressees w e).map fun n =>
    if schedule.connected e.sender n then .delivered e.ordinal e.sender n
    else .partitioned e.ordinal e.sender n (carried w e).view

def settled? : Network.Entry → Option Nat
  | .sent _ | .injected _ _ => none
  | .unscheduled k _ | .delivered k _ _ | .partitioned k _ _ _ => some k

/-- The node is addressed, and is in a group with the sender in the view of the message. -/
def Entitled (n : NodeId) : Prop :=
  ∃ r v g, (n, r) ∈ w.nodes ∧ e.recipients.includes r = true ∧
    w.scenario.schedule? (carried w e).view = some v ∧ g ∈ v.groups ∧ e.sender ∈ g.nodes ∧
      n ∈ g.nodes

variable {w e} {es : List Envelope} {n : NodeId} {k : Nat} {x : Network.Entry}

theorem mem_receivers_iff : n ∈ receivers w e ↔ Entitled w e n := by
  unfold receivers Entitled
  cases w.scenario.schedule? (carried w e).view with
  | none => simp
  | some v =>
    dsimp only
    rw [List.mem_filter, Isolation.connected_iff]
    simp only [Network.addressees, List.mem_map, List.mem_filter, Prod.exists, exists_and_right,
      exists_eq_right, Option.some.injEq]
    constructor
    · rintro ⟨⟨r, hr, hi⟩, g, hg, hs, hn⟩
      exact ⟨r, v, g, hr, hi, rfl, hg, hs, hn⟩
    · rintro ⟨r, v, g, hr, hi, rfl, hg, hs, hn⟩
      exact ⟨⟨r, hr, hi⟩, g, hg, hs, hn⟩

theorem log_resolve_eq (w : Wiring) (e : Envelope) :
    (Network.resolve w e).log = injectionLine w e ++ fate w e := by
  rw [log_resolve]
  unfold injectionLine fate
  congr 1
  cases w.scenario.schedule? (carried w e).view with
  | none => rfl
  | some v =>
    dsimp only
    rw [List.map_eq_flatMap]
    refine List.flatMap_congr fun n _ => ?_
    unfold Network.route
    cases v.connected e.sender n <;> rfl

theorem settled?_injectionLine (hx : x ∈ injectionLine w e) : settled? x = none := by
  unfold injectionLine at hx
  split at hx
  · rw [List.mem_singleton.mp hx]
    rfl
  · cases hx

theorem settled?_fate (hx : x ∈ fate w e) : settled? x = some e.ordinal := by
  unfold fate at hx
  split at hx
  · rw [List.mem_singleton.mp hx]
    rfl
  · obtain ⟨n, -, rfl⟩ := List.mem_map.mp hx
    split <;> rfl

def settlements (log : List Network.Entry) : List Network.Entry :=
  log.filter fun x => (settled? x).isSome

theorem settlements_resolve (w : Wiring) (e : Envelope) :
    settlements (Network.resolve w e).log = fate w e := by
  unfold settlements
  rw [log_resolve_eq, List.filter_append, List.filter_eq_nil_iff.mpr fun x hx => ?_,
    List.nil_append, List.filter_eq_self.mpr fun x hx => ?_]
  · rw [settled?_fate hx]
    rfl
  · rw [settled?_injectionLine hx]
    exact Bool.false_ne_true

theorem settlements_sent (es : List Envelope) : settlements (es.map .sent) = [] := by
  refine List.filter_eq_nil_iff.mpr fun x hx => ?_
  obtain ⟨e, -, rfl⟩ := List.mem_map.mp hx
  exact Bool.false_ne_true

/-- Among messages with distinct numbers, the lines under one of the numbers are those of its
message. -/
theorem fates_filter (hn : (es.map (·.ordinal)).Nodup) (he : e ∈ es) :
    (es.flatMap (fate w)).filter (fun x => settled? x = some e.ordinal) = fate w e := by
  obtain ⟨before, after, rfl⟩ := List.append_of_mem he
  have hother : ∀ es' : List Envelope, (∀ e' ∈ es', e'.ordinal ≠ e.ordinal) →
      (es'.flatMap (fate w)).filter (fun x => settled? x = some e.ordinal) = [] := by
    intro es' h
    refine List.filter_eq_nil_iff.mpr fun x hx => ?_
    obtain ⟨e', he', hx⟩ := List.mem_flatMap.mp hx
    rw [settled?_fate hx]
    simpa using h e' he'
  have hne : ∀ e' ∈ before ++ after, e'.ordinal ≠ e.ordinal := by
    rw [List.map_append, List.map_cons, List.nodup_middle, ← List.map_append] at hn
    intro e' he' ho
    exact (List.nodup_cons.mp hn).1 (ho ▸ List.mem_map_of_mem he')
  rw [List.flatMap_append, List.flatMap_cons, List.filter_append, List.filter_append,
    hother before fun e' he' => hne e' (List.mem_append_left _ he'),
    hother after fun e' he' => hne e' (List.mem_append_right _ he'), List.nil_append,
    List.append_nil]
  refine List.filter_eq_self.mpr fun x hx => ?_
  rw [settled?_fate hx]
  exact decide_eq_true rfl

end Lines

section Books

variable {w : Wiring} {net : Network} {resolved : List Envelope} {e : Envelope}

/-- The books agree, and the log settles each resolved message once. -/
structure Settled (w : Wiring) (resolved : List Envelope) (net : Network) : Prop
    extends Orderly w resolved net where
  settled : settlements net.log = resolved.flatMap (fate w)

theorem Settled.posted (h : Settled w resolved net) (n : NodeId) (origin : ReplicaId)
    (ms : List (Recipients × Message)) :
    Settled w resolved (ms.foldl (Network.post n origin) net) := by
  refine ⟨h.toOrderly.posted n origin ms, ?_⟩
  rw [foldl_post]
  dsimp only
  unfold settlements
  rw [List.filter_append]
  exact (congrArg (_ ++ ·) (settlements_sent _)).trans ((List.append_nil _).trans h.settled)

theorem Settled.batched (h : Settled w resolved net) :
    Settled w net.sent (Network.nextBatch w net).2 := by
  refine ⟨h.toOrderly.batched, ?_⟩
  unfold settlements
  rw [log_nextBatch, List.filter_append, List.filter_flatMap, h.filed, List.flatMap_append]
  exact congrArg₂ (· ++ ·) h.settled (List.flatMap_congr fun e _ => settlements_resolve w e)

theorem Settled.lines (h : Settled w resolved net) (he : e ∈ net.sent) :
    net.log.filter (fun x => settled? x = some e.ordinal) =
      if e ∈ resolved then fate w e else [] := by
  have hfilter : net.log.filter (fun x => settled? x = some e.ordinal) =
      (resolved.flatMap (fate w)).filter fun x => settled? x = some e.ordinal := by
    rw [← h.settled, settlements, List.filter_filter]
    refine List.filter_congr fun x _ => ?_
    cases settled? x <;> simp
  rw [hfilter]
  split
  · rename_i hr
    exact fates_filter h.nodup.of_append_left hr
  · rename_i hr
    refine List.filter_eq_nil_iff.mpr fun x hx => ?_
    obtain ⟨e', he', hx⟩ := List.mem_flatMap.mp hx
    rw [settled?_fate hx, decide_eq_true_eq]
    intro ho
    have hsent : e' ∈ net.sent := h.filed ▸ List.mem_append_left _ he'
    exact hr (h.ordinal_inj hsent he (Option.some.inj ho) ▸ he')

/-- Since the last batch, nothing has been logged but what has been sent. -/
def Since (log : List Network.Entry) (net : Network) : Prop :=
  net.log = log ++ net.pending.map .sent

theorem Since.posted {log : List Network.Entry} (h : Since log net) (n : NodeId)
    (origin : ReplicaId) (ms : List (Recipients × Message)) :
    Since log (ms.foldl (Network.post n origin) net) := by
  unfold Since at h ⊢
  rw [foldl_post]
  dsimp only
  rw [h, List.map_append, List.append_assoc]

end Books

section Batches

variable (scheme : Scheme) (s : Scenario) (config : RunConfig) (p : Protocol)

def batch (k : Nat) : List Delivery :=
  ((performed scheme s config p k).map fun run =>
    (Network.nextBatch (wiring s config) run.network).1.deliveries).getD []

def handed (k : Nat) : List Delivery := (List.range k).flatMap (batch scheme s config p)

structure ResolvesPending {p : Protocol} (w : Wiring) (before after : Run p) : Prop where
  /-- What is sent meanwhile is on record and waits. -/
  sent : after.network.sent = before.network.sent ++ after.network.pending
  /-- First everything that has waited is resolved. -/
  log : after.network.log = before.network.log ++
    before.network.pending.flatMap (fun e => injectionLine w e ++ fate w e) ++
      after.network.pending.map .sent
  /-- Each instance is handed its messages in order before its timer moves on. -/
  instances : after.instances = before.instances.map fun i =>
    (elapse ((Network.nextBatch w before.network).1.deliveries.foldl hear i)).read

structure Delivers (r : RunResult) : Prop where
  numbered : r.sent.map (·.ordinal) = List.range' 1 r.sent.length
  ended : ∃ last, performed scheme s config p r.ticks = some last ∧ last.network.sent = r.sent ∧
    last.network.log = r.log
  opening : ∀ run, performed scheme s config p 0 = some run →
    run.network.sent = run.network.pending ∧ run.network.log = run.network.pending.map .sent
  passed : ∀ k before after, performed scheme s config p k = some before →
    performed scheme s config p (k + 1) = some after →
      ResolvesPending (wiring s config) before after
  /-- Each message is settled once, in the tick after it was sent, if there is one. -/
  settled : ∀ k run, performed scheme s config p k = some run → ∀ e ∈ run.network.pending,
    r.log.filter (fun x => settled? x = some e.ordinal) =
      if k < r.ticks then fate (wiring s config) e else []
  addressees : ∀ e, (Network.addressees (wiring s config) e).Nodup
  /-- A message is handed to the nodes that are entitled to it. -/
  entitled : ∀ d, d ∈ handed scheme s config p r.ticks ↔
    ∃ k < r.ticks, ∃ run, performed scheme s config p k = some run ∧ ∃ e ∈ run.network.pending,
      ∃ n, Entitled (wiring s config) e n ∧
        d = ⟨e.ordinal, n, e.origin, carried (wiring s config) e⟩
  ascending : (handed scheme s config p r.ticks).Pairwise fun d d' =>
    d.ordinal < d'.ordinal ∨ d.ordinal = d'.ordinal ∧ d.receiver.toNat < d'.receiver.toNat
  found : ∀ k run, performed scheme s config p k = some run →
    ∀ d ∈ handed scheme s config p r.ticks, ∃! i, i ∈ run.instances ∧ i.seat.node = d.receiver
  received : (runProtocol scheme s config p).received =
    seen p (handed scheme s config p r.ticks)

end Batches

section Runs

variable {p : Protocol} {scheme : Scheme} {s : Scenario} {config : RunConfig} {w : Wiring}
  {run run' : Run p} {e : Envelope} {k : Nat}

theorem performed_settled (h : performed scheme s config p k = some run) :
    ∃ resolved, Settled (wiring s config) resolved run.network :=
  performed_network (P := fun net => ∃ resolved, Settled (wiring s config) resolved net)
    (fun _ n r ms ⟨resolved, h⟩ => ⟨resolved, h.posted n r ms⟩) ⟨[], orderly_empty _, rfl⟩
    (fun net ⟨_, h⟩ => ⟨net.sent, h.batched⟩) h

theorem performed_opening (h : performed scheme s config p 0 = some run) :
    run.network.sent = run.network.pending ∧
      run.network.log = run.network.pending.map .sent := by
  have hs := acts_network (P := fun net => Orderly (wiring s config) [] net ∧ Since [] net)
    (fun _ n r ms ⟨ho, hl⟩ => ⟨ho.posted n r ms, hl.posted n r ms⟩) p.start (performed_zero.mp h)
    ⟨orderly_empty _, rfl⟩
  exact ⟨hs.1.filed, hs.2⟩

theorem tick_since (h : Run.tick config w run = .ok run') :
    Since (run.network.log ++ run.network.pending.flatMap fun e => injectionLine w e ++ fate w e)
      run'.network := by
  refine tick_network (P := Since _) (fun _ n r ms h => h.posted n r ms) ?_ h
  unfold Since
  rw [log_nextBatch]
  simp only [log_resolve_eq]
  exact (List.append_nil _).symm

theorem tick_resolvesPending (hn : run.nodes.Nodup) {resolved : List Envelope}
    (ho : Orderly w resolved run.network) (h : Run.tick config w run = .ok run') :
    ResolvesPending w run run' where
  sent := (tick_orderly h ho).filed
  log := tick_since h
  instances := by
    rw [deliveries_nextBatch]
    exact tick_instances hn h

/-- By the time `k`, a message that was waiting at the time `j` is resolved if some tick lies
between. -/
theorem resolved_iff {j : Nat} (h : performed scheme s config p j = some run)
    (h' : performed scheme s config p k = some run') (hj : j ≤ k) (he : e ∈ run.network.pending)
    {resolved : List Envelope} (ho : Orderly (wiring s config) resolved run'.network) :
    e ∈ resolved ↔ j < k := by
  constructor
  · intro hr
    by_contra hk
    obtain rfl : j = k := by omega
    rw [Option.some.inj (h.symm.trans h')] at he
    exact ho.not_pending hr he rfl
  · intro hk
    obtain ⟨resolved', ho', hsub⟩ := performed_resolved h h' hk
    obtain ⟨before, hb⟩ := performed_orderly h
    rw [ho.resolved_eq ho']
    exact hsub (hb.pending_sent he)

theorem batch_eq (h : performed scheme s config p k = some run) :
    batch scheme s config p k = run.network.pending.flatMap (deliveries (wiring s config)) := by
  unfold batch
  rw [h]
  exact deliveries_nextBatch _ _

theorem handed_succ (k : Nat) :
    handed scheme s config p (k + 1) =
      handed scheme s config p k ++ batch scheme s config p k := by
  unfold handed
  rw [List.range_succ, List.flatMap_append, List.flatMap_singleton]

theorem handed_eq (h : performed scheme s config p k = some run) :
    ∃ resolved, Orderly (wiring s config) resolved run.network ∧
      handed scheme s config p k = resolved.flatMap (deliveries (wiring s config)) ∧
      run.received = seen p (handed scheme s config p k) := by
  induction k generalizing run with
  | zero =>
    have hs := acts_network (P := Orderly (wiring s config) [])
      (fun _ n r ms ho => ho.posted n r ms) p.start (performed_zero.mp h) (orderly_empty _)
    refine ⟨[], hs, rfl, (started_frame (performed_zero.mp h)).2.2.trans ?_⟩
    unfold seen
    split <;> rfl
  | succ k ih =>
    obtain ⟨before, hb, -, ht⟩ := performed_succ.mp h
    obtain ⟨resolved, ho, hh, hr⟩ := ih hb
    refine ⟨before.network.sent, tick_orderly ht ho, ?_, ?_⟩
    · rw [handed_succ, batch_eq hb, hh, ho.filed, List.flatMap_append]
    · rw [handed_succ, batch_eq hb, seen_append, ← hr]
      exact (tick_frame ht).2.2

theorem handed_ascend (hv : config.validate s = .ok ())
    (h : performed scheme s config p k = some run) :
    (handed scheme s config p k).Pairwise fun d d' =>
      d.ordinal < d'.ordinal ∨ d.ordinal = d'.ordinal ∧ d.receiver.toNat < d'.receiver.toNat := by
  obtain ⟨resolved, ho, hh, -⟩ := handed_eq h
  have hnum : (resolved.map (·.ordinal)).Pairwise (· < ·) := by
    have hs : (run.network.sent.map (·.ordinal)).Pairwise (· < ·) :=
      ho.numbered ▸ List.pairwise_lt_range'
    rw [ho.filed, List.map_append] at hs
    exact (List.pairwise_append.mp hs).1
  have hw := Attribution.cluster_wired scheme s config hv
  rw [hh]
  refine List.pairwise_flatMap.mpr ⟨fun e _ => ?_, ?_⟩
  · exact List.pairwise_map.mpr ((Attribution.receivers_ascend hw e).imp fun h => .inr ⟨rfl, h⟩)
  · refine (List.pairwise_map.mp hnum).imp fun hlt d hd d' hd' => ?_
    obtain ⟨n, -, rfl⟩ := mem_deliveries.mp hd
    obtain ⟨n', -, rfl⟩ := mem_deliveries.mp hd'
    exact .inl hlt

theorem mem_handed {d : Delivery} :
    d ∈ handed scheme s config p k ↔
      ∃ j < k, ∃ run, performed scheme s config p j = some run ∧ ∃ e ∈ run.network.pending,
        ∃ n, Entitled (wiring s config) e n ∧
          d = ⟨e.ordinal, n, e.origin, carried (wiring s config) e⟩ := by
  unfold handed
  rw [List.mem_flatMap]
  simp only [List.mem_range, ← mem_receivers_iff]
  refine exists_congr fun j => and_congr_right fun _ => ?_
  constructor
  · intro hd
    cases hj : performed scheme s config p j with
    | none =>
      unfold batch at hd
      rw [hj] at hd
      cases hd
    | some run =>
      rw [batch_eq hj] at hd
      obtain ⟨e, he, hd⟩ := List.mem_flatMap.mp hd
      exact ⟨run, rfl, e, he, mem_deliveries.mp hd⟩
  · rintro ⟨run, hj, e, he, hd⟩
    rw [batch_eq hj]
    exact List.mem_flatMap.mpr ⟨e, he, mem_deliveries.mpr hd⟩

theorem nodup_assigned (hv : config.validate s = .ok ()) :
    ((wiring s config).nodes.map (·.1)).Nodup := by
  have ha := Attribution.assignNodes_ascend (Deployment.validate_spec hv).2.2
  refine List.pairwise_map.mpr (ha.imp fun h heq => ?_)
  rw [heq] at h
  exact Nat.lt_irrefl _ h

theorem handed_found (hv : config.validate s = .ok ())
    (h : performed scheme s config p k = some run) {j : Nat} {d : Delivery}
    (hd : d ∈ handed scheme s config p j) :
    ∃! i, i ∈ run.instances ∧ i.seat.node = d.receiver := by
  have hn := (performed_frame h).1
  obtain ⟨-, -, -, -, e, -, n, ⟨r, -, -, hr, -⟩, rfl⟩ := mem_handed.mp hd
  have hmem : n ∈ run.nodes := hn ▸ List.mem_map.mpr ⟨_, hr, rfl⟩
  obtain ⟨i, hi, hin⟩ := List.mem_map.mp hmem
  refine ⟨i, ⟨hi, hin⟩, fun j ⟨hj, hjn⟩ => ?_⟩
  exact List.inj_on_of_nodup_map (hn ▸ nodup_assigned hv) hj hi
    (hjn.trans hin.symm)

end Runs

open Agreement (plainScheme)
open Substitution (rigged hasty hastyRun sameNewView complaint)

end Equivocation.Proofs.Dispatch
