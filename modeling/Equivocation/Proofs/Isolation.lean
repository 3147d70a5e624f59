import Equivocation.Proofs.Agreement
import Equivocation.Proofs.Timeline

namespace Equivocation.Proofs.Isolation

open States Routing Timeline

/-- A message as it was sent, without its number. -/
structure Letter where
  sender : NodeId
  origin : ReplicaId
  recipients : Recipients
  message : Message
deriving DecidableEq

def letter (e : Envelope) : Letter := ⟨e.sender, e.origin, e.recipients, e.message⟩

def outbox (n : NodeId) (net : Network) : List Letter :=
  (net.sent.filter (·.sender = n)).map letter

def receipt (sent : List Envelope) : Network.Entry → Option (NodeId × Letter)
  | .delivered k _ n => (sent.find? (·.ordinal = k)).map fun e => (n, letter e)
  | _ => none

def receipts (net : Network) : List (NodeId × Letter) := net.log.filterMap (receipt net.sent)

def inbox (n : NodeId) (net : Network) : List Letter :=
  ((receipts net).filter (·.1 = n)).map (·.2)

/-- In every view, no group has nodes both of `A` and of the rest. -/
def Sealed (A : Finset NodeId) (s : Scenario) : Prop :=
  ∀ v ∈ s.views, ∀ g ∈ v.groups, (∀ n ∈ g.nodes, n ∈ A) ∨ ∀ n ∈ g.nodes, n ∉ A

/-- In every view, the groups that nodes of `A` form among themselves are the same. -/
def AlikeInside (A : Finset NodeId) (s₁ s₂ : Scenario) : Prop :=
  ∀ v ∈ s₁.views.zip s₂.views, ∀ g ∈ v.1.groups ++ v.2.groups, g.nodes ≠ [] →
    (∀ n ∈ g.nodes, n ∈ A) → (g ∈ v.1.groups ↔ g ∈ v.2.groups)

instance (A : Finset NodeId) (s : Scenario) : Decidable (Sealed A s) :=
  inferInstanceAs (Decidable (∀ v ∈ s.views, ∀ g ∈ v.groups, _ ∨ _))

instance (A : Finset NodeId) (s₁ s₂ : Scenario) : Decidable (AlikeInside A s₁ s₂) :=
  inferInstanceAs (Decidable (∀ v ∈ s₁.views.zip s₂.views, ∀ g ∈ v.1.groups ++ v.2.groups, _))

structure AlikeWirings (A : Finset NodeId) (w₁ w₂ : Wiring) : Prop where
  nodes : w₁.nodes = w₂.nodes
  plain₁ : w₁.injection = none
  plain₂ : w₂.injection = none
  length : w₁.scenario.views.length = w₂.scenario.views.length
  sealed₁ : Sealed A w₁.scenario
  sealed₂ : Sealed A w₂.scenario
  inside : AlikeInside A w₁.scenario w₂.scenario

variable {p : Protocol} {A : Finset NodeId} {s s₁ s₂ : Scenario} {w w₁ w₂ : Wiring}
  {v v₁ v₂ : ViewSchedule} {a b n : NodeId} {e e' : Envelope} {net : Network}
  {resolved : List Envelope}

section Reach

theorem connected_iff : v.connected a b = true ↔ ∃ g ∈ v.groups, a ∈ g.nodes ∧ b ∈ g.nodes := by
  simp [ViewSchedule.connected, NodeSet.contains]

theorem sealed_connected (hs : Sealed A s) (hv : v ∈ s.views) (hc : v.connected a b = true) :
    a ∈ A ↔ b ∈ A := by
  obtain ⟨g, hg, ha, hb⟩ := connected_iff.mp hc
  obtain h | h := hs v hv g hg
  · exact iff_of_true (h a ha) (h b hb)
  · exact iff_of_false (h a ha) (h b hb)

/-- A group that connects a node of `A` to another is inside `A`. -/
theorem connected_alikeWirings {i : Nat} (h₁ : s₁.views[i]? = some v₁) (h₂ : s₂.views[i]? = some v₂)
    (hs₁ : Sealed A s₁) (hs₂ : Sealed A s₂) (hg : AlikeInside A s₁ s₂) (ha : a ∈ A) :
    v₁.connected a b = v₂.connected a b := by
  have hin : ∀ {s v}, s.views[i]? = some v → Sealed A s → ∀ g ∈ v.groups, a ∈ g.nodes →
      g.nodes ≠ [] ∧ ∀ n ∈ g.nodes, n ∈ A := by
    intro s v hv hs g hg hag
    refine ⟨List.ne_nil_of_mem hag, (hs v (List.mem_of_getElem? hv) g hg).resolve_right fun h => ?_⟩
    exact h a hag ha
  have hz : (v₁, v₂) ∈ s₁.views.zip s₂.views :=
    List.mem_of_getElem? (List.getElem?_zip_eq_some.mpr ⟨h₁, h₂⟩)
  refine Bool.eq_iff_iff.mpr (connected_iff.trans (Iff.trans ?_ connected_iff.symm))
  constructor
  · rintro ⟨g, hm, hag, hbg⟩
    obtain ⟨hne, hA⟩ := hin h₁ hs₁ g hm hag
    exact ⟨g, (hg _ hz g (List.mem_append_left _ hm) hne hA).mp hm, hag, hbg⟩
  · rintro ⟨g, hm, hag, hbg⟩
    obtain ⟨hne, hA⟩ := hin h₂ hs₂ g hm hag
    exact ⟨g, (hg _ hz g (List.mem_append_right _ hm) hne hA).mpr hm, hag, hbg⟩

theorem schedule?_eq_some {u : View} (h : s.schedule? u = some v) :
    s.views[u.toNat - 1]? = some v := by
  unfold Scenario.schedule? at h
  split at h
  · cases h
  · exact h

/-- Messages do not cross the boundary of `A`. -/
theorem receivers_sealed (hs : Sealed A w.scenario) (hn : n ∈ receivers w e) :
    e.sender ∈ A ↔ n ∈ A := by
  unfold receivers at hn
  split at hn
  · cases hn
  · rename_i v hv
    have hc := (List.mem_filter.mp hn).2
    exact sealed_connected hs (List.mem_of_getElem? (schedule?_eq_some hv)) hc

theorem schedule?_eq_none (hl : s₁.views.length = s₂.views.length) (u : View) :
    s₁.schedule? u = none ↔ s₂.schedule? u = none := by
  unfold Scenario.schedule?
  split
  · rfl
  · rw [List.getElem?_eq_none_iff, List.getElem?_eq_none_iff, hl]

theorem receivers_alikeWirings (h : AlikeWirings A w₁ w₂) (ha : e.sender ∈ A) :
    receivers w₁ e = receivers w₂ e := by
  have hnone := schedule?_eq_none h.length e.message.view
  unfold receivers Network.addressees
  rw [carried_eq h.plain₁, carried_eq h.plain₂, h.nodes]
  cases h₁ : w₁.scenario.schedule? e.message.view with
  | none => rw [hnone.mp h₁]
  | some v₁ =>
    cases h₂ : w₂.scenario.schedule? e.message.view with
    | none => cases h₁.symm.trans (hnone.mpr h₂)
    | some v₂ =>
      refine List.filter_congr fun n _ => ?_
      exact connected_alikeWirings (schedule?_eq_some h₁) (schedule?_eq_some h₂) h.sealed₁ h.sealed₂
        h.inside ha

def reach (w : Wiring) (l : Letter) : List NodeId :=
  receivers w ⟨0, l.sender, l.origin, l.recipients, l.message⟩

theorem receivers_eq (hi : w.injection = none) (e : Envelope) :
    receivers w e = reach w (letter e) := by
  unfold reach receivers Network.addressees
  rw [carried_eq hi, carried_eq hi]
  rfl

end Reach

section Receipts

theorem receipt_delivered (sent : List Envelope) (k : Nat) (a n : NodeId) :
    receipt sent (.delivered k a n) =
      (sent.find? (·.ordinal = k)).map fun e => (n, letter e) := rfl

theorem letters_letter (n : NodeId) (r : ReplicaId) (k : Nat) (ms : List (Recipients × Message)) :
    (letters n r k ms).map letter = ms.map fun m => ⟨n, r, m.1, m.2⟩ := by
  induction ms generalizing k with
  | nil => rfl
  | cons m ms ih =>
    rw [letters, List.map_cons, List.map_cons, ih]
    rfl

theorem find?_ordinal (ho : Orderly w resolved net) (he : e ∈ net.sent) :
    net.sent.find? (·.ordinal = e.ordinal) = some e := by
  cases hf : net.sent.find? (·.ordinal = e.ordinal) with
  | none => exact absurd (decide_eq_true rfl) (List.find?_eq_none.mp hf e he)
  | some e' =>
    have hk := List.find?_some hf
    rw [ho.ordinal_inj (List.mem_of_find?_eq_some hf) he (of_decide_eq_true hk)]

theorem receipts_post (ho : Orderly w resolved net) (n : NodeId) (r : ReplicaId)
    (ms : List (Recipients × Message)) :
    receipts (ms.foldl (Network.post n r) net) = receipts net := by
  rw [foldl_post]
  unfold receipts
  dsimp only
  rw [List.filterMap_append, List.filterMap_map]
  have hn : ((letters n r net.sent.length ms).filterMap
      (receipt (net.sent ++ letters n r net.sent.length ms) ∘ .sent)) = [] :=
    List.filterMap_eq_nil_iff.mpr fun _ _ => rfl
  rw [hn, List.append_nil]
  refine List.filterMap_congr fun x hx => ?_
  cases x with
  | delivered k a m =>
    obtain ⟨e, he, rfl, -, -⟩ := (ho.logged k a m).mp hx
    have hs : e ∈ net.sent := ho.filed ▸ List.mem_append_left _ he
    rw [receipt_delivered, receipt_delivered, List.find?_append, find?_ordinal ho hs]
    rfl
  | _ => rfl

theorem filterMap_route {f : Network.Entry → Option (NodeId × Letter)}
    (hf : ∀ k a n u, f (.partitioned k a n u) = none) (m : Message) (c : Bool) (ns : List NodeId) :
    (ns.flatMap fun n => (Network.route v e m c n).log).filterMap f =
      (ns.filter fun n => v.connected e.sender n).filterMap
        fun n => f (.delivered e.ordinal e.sender n) := by
  induction ns with
  | nil => rfl
  | cons n ns ih =>
    rw [List.flatMap_cons, List.filterMap_append, ih, List.filter_cons]
    unfold Network.route
    cases v.connected e.sender n with
    | false => simp [hf]
    | true => cases h : f (.delivered e.ordinal e.sender n) <;> simp [h]

/-- Without an injection, all that the log of a message has to say of deliveries is whom it
reaches. -/
theorem filterMap_resolve (hi : w.injection = none) {sent : List Envelope}
    (he : sent.find? (·.ordinal = e.ordinal) = some e) :
    (Network.resolve w e).log.filterMap (receipt sent) =
      (receivers w e).map fun n => (n, letter e) := by
  have hr : Network.replacement? w e = none := by
    unfold Network.replacement?
    rw [hi]
  have hd : ∀ n, receipt sent (.delivered e.ordinal e.sender n) = some (n, letter e) := by
    intro n
    rw [receipt_delivered, he]
    rfl
  rw [log_resolve, hr]
  unfold receivers
  cases w.scenario.schedule? _ with
  | none => rfl
  | some v =>
    rw [Option.isSome_none, if_neg Bool.false_ne_true, List.nil_append,
      filterMap_route fun _ _ _ _ => rfl]
    simp only [hd]
    rw [← List.filterMap_eq_map]
    rfl

theorem receipts_batch (hi : w.injection = none) (ho : Orderly w resolved net) :
    receipts (Network.nextBatch w net).2 =
      receipts net ++ net.pending.flatMap fun e => (receivers w e).map fun n => (n, letter e) := by
  have hs : (Network.nextBatch w net).2.sent = net.sent := rfl
  unfold receipts
  rw [hs, log_nextBatch, List.filterMap_append, List.filterMap_flatMap]
  refine congrArg (_ ++ ·) (List.flatMap_congr fun e he => ?_)
  exact filterMap_resolve hi (find?_ordinal ho (ho.pending_sent he))

end Receipts

@[ext] structure Restriction (p : Protocol) where
  instances : List (Instance p)
  sent : List Letter
  pending : List Letter
  received : List (NodeId × Letter)

def restrict (A : Finset NodeId) (run : Run p) : Restriction p where
  instances := run.instances.filter (·.seat.node ∈ A)
  sent := (run.network.sent.filter (·.sender ∈ A)).map letter
  pending := (run.network.pending.filter (·.sender ∈ A)).map letter
  received := (receipts run.network).filter (·.1 ∈ A)

namespace Restriction

def act (n : NodeId) (turn : Seat → p.State → Turn p.State) (E : Restriction p) : Restriction p :=
  match E.instances.find? (·.seat.node = n) with
  | none => E
  | some i =>
    let t := turn i.seat i.state
    let posted : List Letter := t.sent.map fun m => ⟨n, i.seat.replica, m.1, m.2⟩
    { E with
      instances := E.instances.map fun j =>
        if j.seat.node = n then { j with state := t.state, unread := j.unread ++ t.events } else j
      sent := E.sent ++ posted
      pending := E.pending ++ posted }

def deliver (E : Restriction p) (x : NodeId × ReplicaId × Message) : Restriction p :=
  E.act x.1 fun seat s => p.receive seat x.2.1 x.2.2 s

def tick (w : Wiring) (E : Restriction p) : Restriction p :=
  let batch := E.pending.flatMap fun l => (reach w l).map fun n => (n, l)
  let E := { E with pending := [], received := E.received ++ batch }
  let E := (batch.map fun x => (x.1, x.2.origin, x.2.message)).foldl deliver E
  let E := (E.instances.map (·.seat.node)).foldl (fun E n => E.act n p.tick) E
  { E with instances := E.instances.map Instance.read }

end Restriction

section Steps

variable {run run' : Run p} {turn : Seat → p.State → Turn p.State} {i : Instance p}
  {config : RunConfig}

theorem find?_inside (hn : n ∈ A) (xs : List (Instance p)) :
    (xs.filter (·.seat.node ∈ A)).find? (·.seat.node = n) = xs.find? (·.seat.node = n) := by
  rw [List.find?_filter]
  refine congrArg (xs.find? ·) (funext fun i => ?_)
  by_cases h : i.seat.node = n
  · simp [h, hn]
  · simp [h]

theorem map_inside {f : Instance p → Instance p} (hf : ∀ i, (f i).seat = i.seat)
    (xs : List (Instance p)) :
    (xs.map f).filter (·.seat.node ∈ A) = (xs.filter (·.seat.node ∈ A)).map f := by
  rw [List.filter_map]
  refine congrArg (List.map f) (List.filter_congr fun i _ => ?_)
  rw [Function.comp_apply, hf]

theorem filter_letters (n : NodeId) (r : ReplicaId) (k : Nat) (ms : List (Recipients × Message)) :
    ((letters n r k ms).filter (·.sender ∈ A)).map letter =
      if n ∈ A then ms.map fun m => ⟨n, r, m.1, m.2⟩ else [] := by
  split
  · rename_i hn
    rw [List.filter_eq_self.mpr fun e he => decide_eq_true ((mem_letters he).1 ▸ hn),
      letters_letter]
  · rename_i hn
    rw [List.filter_eq_nil_iff.mpr fun e he => by simpa [(mem_letters he).1] using hn]
    rfl

theorem restrict_moved (ho : Orderly w resolved run.network) (t : Turn p.State)
    (hf : run.instances.find? (·.seat.node = n) = some i) (ht : t = turn i.seat i.state) :
    restrict A (moved run n i t) =
      if n ∈ A then (restrict A run).act n turn else restrict A run := by
  have hr := receipts_post ho n i.seat.replica t.sent
  have hu : ∀ j : Instance p, (if j.seat.node = n then
      { j with state := t.state, unread := j.unread ++ t.events } else j).seat = j.seat := by
    intro j
    split <;> rfl
  unfold restrict moved
  dsimp only
  rw [hr, foldl_post, map_inside hu]
  dsimp only
  rw [List.filter_append, List.filter_append, List.map_append, List.map_append, filter_letters]
  split
  · rename_i hn
    unfold Restriction.act
    dsimp only
    rw [find?_inside hn, hf, ht]
  · rename_i hn
    rw [List.append_nil, List.append_nil]
    refine Restriction.ext ?_ rfl rfl rfl
    refine (List.map_congr_left fun j hj => ?_).trans (List.map_id _)
    have hj : j.seat.node ∈ A := by simpa using (List.mem_filter.mp hj).2
    rw [if_neg (show ¬ j.seat.node = n from fun h => hn (h ▸ hj))]
    rfl

theorem restrict_act (ho : Orderly w resolved run.network) (h : run.act n turn = .ok run') :
    restrict A run' = if n ∈ A then (restrict A run).act n turn else restrict A run := by
  obtain ⟨hf, rfl⟩ | ⟨i, hf, rfl⟩ := act_ok h
  · split
    · rename_i hn
      unfold Restriction.act restrict
      dsimp only
      rw [find?_inside hn, hf]
    · rfl
  · exact restrict_moved ho _ hf rfl

theorem restrict_deliver {d : Delivery} (ho : Orderly w resolved run.network)
    (h : Run.deliver d run = .ok run') :
    restrict A run' =
        (if d.receiver ∈ A then (restrict A run).deliver (d.receiver, d.origin, d.message)
        else restrict A run) ∧
      Orderly w resolved run'.network := by
  obtain ⟨handed, hi, hn, ha⟩ := deliver_ok h
  have he : restrict A handed = restrict A run := by
    unfold restrict
    rw [hi, hn]
  rw [← hn] at ho
  rw [restrict_act ho ha, he]
  exact ⟨rfl, act_orderly ha ho⟩

theorem restrict_deliveries {ds : List Delivery} (ho : Orderly w resolved run.network)
    (h : Run.sequence Run.deliver ds run = .ok run') :
    restrict A run' =
        (((ds.filter (·.receiver ∈ A)).map fun d => (d.receiver, d.origin, d.message)).foldl
          Restriction.deliver (restrict A run)) ∧
      Orderly w resolved run'.network := by
  induction ds generalizing run with
  | nil => exact Except.ok.inj h ▸ ⟨rfl, ho⟩
  | cons d ds ih =>
    obtain ⟨next, hd, hds⟩ := sequence_cons h
    obtain ⟨he, hn⟩ := restrict_deliver (A := A) ho hd
    obtain ⟨he', hl⟩ := ih hn hds
    refine ⟨?_, hl⟩
    rw [he', he, List.filter_cons]
    by_cases hA : d.receiver ∈ A
    · simp [hA]
    · simp [hA]

theorem restrict_timers {ns : List NodeId} (ho : Orderly w resolved run.network)
    (h : Run.sequence (fun n => Run.act n p.tick) ns run = .ok run') :
    restrict A run' = (ns.filter (· ∈ A)).foldl (fun E n => E.act n p.tick) (restrict A run) := by
  induction ns generalizing run with
  | nil => exact Except.ok.inj h ▸ rfl
  | cons n ns ih =>
    obtain ⟨next, hn, hns⟩ := sequence_cons h
    rw [ih (act_orderly hn ho) hns, restrict_act ho hn, List.filter_cons]
    by_cases hA : n ∈ A
    · simp [hA]
    · simp [hA]

/-- What a batch brings to the nodes inside is what they have sent themselves. -/
theorem receipts_inside (hi : w.injection = none) (hs : Sealed A w.scenario)
    (es : List Envelope) :
    (es.flatMap fun e => (receivers w e).map fun n => (n, letter e)).filter (·.1 ∈ A) =
      ((es.filter (·.sender ∈ A)).map letter).flatMap fun l => (reach w l).map fun n => (n, l) := by
  induction es with
  | nil => rfl
  | cons e es ih =>
    rw [List.flatMap_cons, List.filter_append, ih, List.filter_cons]
    have hr : ∀ n ∈ reach w (letter e), (e.sender ∈ A ↔ n ∈ A) := fun n hn =>
      receivers_sealed hs (receivers_eq hi e ▸ hn)
    rw [receivers_eq hi]
    by_cases hA : e.sender ∈ A
    · rw [if_pos (decide_eq_true hA), List.map_cons, List.flatMap_cons, List.filter_eq_self.mpr]
      intro x hx
      obtain ⟨n, hn, rfl⟩ := List.mem_map.mp hx
      exact decide_eq_true ((hr n hn).mp hA)
    · rw [if_neg (by simpa using hA), List.filter_eq_nil_iff.mpr]
      · rfl
      · intro x hx
        obtain ⟨n, hn, rfl⟩ := List.mem_map.mp hx
        simpa using fun h => hA ((hr n hn).mpr h)

theorem deliveries_inside (hi : w.injection = none) (hs : Sealed A w.scenario)
    (es : List Envelope) :
    ((es.flatMap (deliveries w)).filter (·.receiver ∈ A)).map
        (fun d => (d.receiver, d.origin, d.message)) =
      (((es.filter (·.sender ∈ A)).map letter).flatMap
        fun l => (reach w l).map fun n => (n, l)).map
          fun x : NodeId × Letter => (x.1, x.2.origin, x.2.message) := by
  have hm : (es.flatMap (deliveries w)).map (fun d => (d.receiver, d.origin, d.message)) =
      (es.flatMap fun e => (receivers w e).map fun n => (n, letter e)).map
        fun x : NodeId × Letter => (x.1, x.2.origin, x.2.message) := by
    rw [List.map_flatMap, List.map_flatMap]
    refine List.flatMap_congr fun e _ => ?_
    unfold deliveries
    rw [List.map_map, List.map_map, carried_eq hi]
    rfl
  have hf := congrArg (List.filter (·.1 ∈ A)) hm
  rw [List.filter_map, List.filter_map] at hf
  rw [← receipts_inside hi hs]
  exact hf

theorem restrict_tick (hi : w.injection = none) (hs : Sealed A w.scenario)
    (ho : Orderly w resolved run.network) (h : Run.tick config w run = .ok run') :
    restrict A run' = (restrict A run).tick w := by
  obtain ⟨run₁, run₂, h₁, h₂, rfl⟩ := tick_ok h
  obtain ⟨he₁, ho₁⟩ := restrict_deliveries (A := A) ho.batched h₁
  have he₂ := restrict_timers (A := A) ho₁ h₂
  have hb : restrict A { run with
      network := (Network.nextBatch w run.network).2
      records := run.records ++ (Network.nextBatch w run.network).1.remarks } =
      { restrict A run with
        pending := []
        received := (restrict A run).received ++
          (restrict A run).pending.flatMap fun l => (reach w l).map fun n => (n, l) } := by
    unfold restrict
    dsimp only
    rw [receipts_batch hi ho, List.filter_append, receipts_inside hi hs]
    rfl
  have hn : run₁.nodes.filter (· ∈ A) = (restrict A run₁).instances.map (·.seat.node) := by
    unfold Run.nodes restrict
    rw [List.filter_map]
    rfl
  have hr : restrict A { run₂.readEvents config with ticks := run₂.ticks + 1 } =
      { restrict A run₂ with instances := (restrict A run₂).instances.map Instance.read } := by
    unfold restrict Run.readEvents
    dsimp only
    rw [map_inside (f := Instance.read) fun _ => rfl]
  rw [hr, he₂, hn, he₁, hb, deliveries_nextBatch, deliveries_inside hi hs]
  rfl

end Steps

section Runs

variable {scheme : Scheme} {config : RunConfig} {ρ₁ ρ₂ : Run p} {k : Nat}

theorem reach_alikeWirings (h : AlikeWirings A w₁ w₂) {l : Letter} (hl : l.sender ∈ A) :
    reach w₁ l = reach w₂ l :=
  receivers_alikeWirings h hl

theorem restrict_tick_alikeWirings (h : AlikeWirings A w₁ w₂) {E : Restriction p}
    (hE : ∀ l ∈ E.pending, l.sender ∈ A) : E.tick w₁ = E.tick w₂ := by
  have hb : (E.pending.flatMap fun l => (reach w₁ l).map fun n => (n, l)) =
      E.pending.flatMap fun l => (reach w₂ l).map fun n => (n, l) :=
    List.flatMap_congr fun l hl => by rw [reach_alikeWirings h (hE l hl)]
  unfold Restriction.tick
  rw [hb]

theorem pending_inside (run : Run p) : ∀ l ∈ (restrict A run).pending, l.sender ∈ A := by
  intro l hl
  obtain ⟨e, he, rfl⟩ := List.mem_map.mp hl
  simpa [letter] using (List.mem_filter.mp he).2

theorem length_of_leaders (hl : s₁.leaders = s₂.leaders) : s₁.views.length = s₂.views.length := by
  simpa [Scenario.leaders] using congrArg List.length hl

theorem opened_alikeWirings (hl : s₁.leaders = s₂.leaders) :
    opened scheme s₁ config p = opened scheme s₂ config p := by
  have hs : s₁.size = s₂.size := length_of_leaders hl
  unfold opened Run.initial wiring
  rw [hl, hs]

theorem started_alikeWirings (hl : s₁.leaders = s₂.leaders) :
    started scheme s₁ config p = started scheme s₂ config p := by
  unfold started
  rw [opened_alikeWirings hl]

theorem restrict_performed (hl : s₁.leaders = s₂.leaders)
    (ha : AlikeWirings A (wiring s₁ config) (wiring s₂ config))
    (h₁ : performed scheme s₁ config p k = some ρ₁)
    (h₂ : performed scheme s₂ config p k = some ρ₂) : restrict A ρ₁ = restrict A ρ₂ := by
  -- The runs number their messages differently and interleave them with others, which the
  -- restrictions do not show: each makes its own ticks from what it has.
  induction k generalizing ρ₁ ρ₂ with
  | zero =>
    have hs := (started_alikeWirings hl).symm.trans (performed_zero.mp h₁)
    rw [Except.ok.inj (hs.symm.trans (performed_zero.mp h₂))]
  | succ k ih =>
    obtain ⟨b₁, hb₁, -, ht₁⟩ := performed_succ.mp h₁
    obtain ⟨b₂, hb₂, -, ht₂⟩ := performed_succ.mp h₂
    obtain ⟨r₁, ho₁⟩ := performed_orderly hb₁
    obtain ⟨r₂, ho₂⟩ := performed_orderly hb₂
    calc restrict A ρ₁
        = (restrict A b₁).tick (wiring s₁ config) := restrict_tick ha.plain₁ ha.sealed₁ ho₁ ht₁
      _ = (restrict A b₁).tick (wiring s₂ config) :=
        restrict_tick_alikeWirings ha (pending_inside b₁)
      _ = (restrict A b₂).tick (wiring s₂ config) := by rw [ih hb₁ hb₂]
      _ = restrict A ρ₂ := (restrict_tick ha.plain₂ ha.sealed₂ ho₂ ht₂).symm

theorem inbox_restriction (hn : n ∈ A) (run : Run p) :
    inbox n run.network = ((restrict A run).received.filter (·.1 = n)).map (·.2) := by
  unfold inbox restrict
  rw [List.filter_filter]
  refine congrArg (List.map _) (List.filter_congr fun x _ => ?_)
  by_cases h : x.1 = n
  · simp [h, hn]
  · simp [h]

theorem outbox_restriction (hn : n ∈ A) (run : Run p) :
    outbox n run.network = (restrict A run).sent.filter (·.sender = n) := by
  unfold outbox restrict
  rw [List.filter_map, List.filter_filter]
  refine congrArg (List.map _) (List.filter_congr fun e _ => ?_)
  by_cases h : e.sender = n
  · simp [letter, h, hn]
  · simp [letter, h]

theorem instance_restriction (hn : n ∈ A) (run : Run p) :
    run.instances.find? (·.seat.node = n) =
      (restrict A run).instances.find? (·.seat.node = n) :=
  (find?_inside hn run.instances).symm

/-- Nodes that no group connects to the rest are not affected by how the rest is connected: what
they receive and send, in order, is the same, and so are their instances, with the views that they
are in and what they have committed. -/
theorem partitions_isolate (hi : config.injection = none) (hl : s₁.leaders = s₂.leaders)
    (hs₁ : Sealed A s₁) (hs₂ : Sealed A s₂) (hg : AlikeInside A s₁ s₂)
    (h₁ : performed scheme s₁ config p k = some ρ₁)
    (h₂ : performed scheme s₂ config p k = some ρ₂) (hn : n ∈ A) :
    inbox n ρ₁.network = inbox n ρ₂.network ∧ outbox n ρ₁.network = outbox n ρ₂.network ∧
      ρ₁.instances.find? (·.seat.node = n) = ρ₂.instances.find? (·.seat.node = n) := by
  have ha : AlikeWirings A (wiring s₁ config) (wiring s₂ config) :=
    { nodes := rfl
      plain₁ := hi
      plain₂ := hi
      length := length_of_leaders hl
      sealed₁ := hs₁
      sealed₂ := hs₂
      inside := hg }
  have he := restrict_performed hl ha h₁ h₂
  refine ⟨?_, ?_, ?_⟩
  · rw [inbox_restriction hn, inbox_restriction hn, he]
  · rw [outbox_restriction hn, outbox_restriction hn, he]
  · rw [instance_restriction hn, instance_restriction hn, he]

end Runs

section Severed

open Agreement (plainScheme fourReplicas)

def severed (groups : List (List Nat)) : Scenario where
  views := [1, 2, 2, 2].map fun leader =>
    ⟨.ofNat leader, groups.map fun g => .ofList (g.map .ofNat)⟩

def quorumNodes : Finset NodeId := ([1, 3, 4].map .ofNat).toFinset

/-- Node 2 runs the same replica as node 1. Whether it meets node 5 makes a difference to the two of
them, and none to node 3, which enters the second view. -/
theorem partitions_isolate_severed :
    ∃ ρ₁ ρ₂ : Run Rules.simple.protocol,
      performed plainScheme (severed [[1, 3, 4], [2, 5]]) (fourReplicas .simple 7) _ 2 = some ρ₁ ∧
      performed plainScheme (severed [[1, 3, 4], [2], [5]]) (fourReplicas .simple 7) _ 2 =
        some ρ₂ ∧
      (outbox (.ofNat 5) ρ₁.network ≠ outbox (.ofNat 5) ρ₂.network ∧
        ∃ i ∈ ρ₁.instances, i.seat.node = .ofNat 3 ∧
          (Rules.simple.protocol.view i.state).toNat = 2) ∧
      inbox (.ofNat 3) ρ₁.network = inbox (.ofNat 3) ρ₂.network ∧
      outbox (.ofNat 3) ρ₁.network = outbox (.ofNat 3) ρ₂.network ∧
      ρ₁.instances.find? (·.seat.node = .ofNat 3) =
        ρ₂.instances.find? (·.seat.node = .ofNat 3) := by
  have hruns : (performed plainScheme (severed [[1, 3, 4], [2, 5]]) (fourReplicas .simple 7)
        Rules.simple.protocol 2).any (fun ρ₁ =>
      (performed plainScheme (severed [[1, 3, 4], [2], [5]]) (fourReplicas .simple 7)
        Rules.simple.protocol 2).any fun ρ₂ =>
          outbox (.ofNat 5) ρ₁.network ≠ outbox (.ofNat 5) ρ₂.network ∧
            ∃ i ∈ ρ₁.instances, i.seat.node = .ofNat 3 ∧
              (Rules.simple.protocol.view i.state).toNat = 2) = true := by
    decide +kernel
  obtain ⟨ρ₁, h₁, hruns⟩ := (Option.any_eq_true _ _).mp hruns
  obtain ⟨ρ₂, h₂, hruns⟩ := (Option.any_eq_true _ _).mp hruns
  have hl : (severed [[1, 3, 4], [2, 5]]).leaders = (severed [[1, 3, 4], [2], [5]]).leaders := rfl
  have hs₁ : Sealed quorumNodes (severed [[1, 3, 4], [2, 5]]) := by decide
  have hs₂ : Sealed quorumNodes (severed [[1, 3, 4], [2], [5]]) := by decide
  have hg : AlikeInside quorumNodes (severed [[1, 3, 4], [2, 5]])
      (severed [[1, 3, 4], [2], [5]]) := by
    decide
  exact ⟨ρ₁, ρ₂, h₁, h₂, of_decide_eq_true hruns,
    partitions_isolate rfl hl hs₁ hs₂ hg h₁ h₂ (by decide)⟩

end Severed

end Equivocation.Proofs.Isolation
