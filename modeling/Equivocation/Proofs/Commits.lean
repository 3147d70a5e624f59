import Equivocation.Proofs.Trails
import Equivocation.Proofs.Worlds
import Mathlib.Data.List.TakeWhile

namespace Equivocation.Proofs.Commits

open Relation History Locking Trails Ancestry Turns Soundness Worlds Replica

def commit? : Effect → Option Hash
  | .publish (.commitBlock h _) => some h
  | _ => none

def commits (n : NodeId) (T : Trace) : List Hash :=
  T.filterMap fun x => if x.1 = n then commit? x.2 else none

/-- Whenever three certificates in a row are known for a block that the node committed, no other
branch has an inner block in the views of the block and the next two. -/
def Steady (T : Trace) (n : NodeId) : Prop :=
  ∀ b one two three, Known T b → Link T b one → Link T one two → Link T two three →
    three.hash ∈ commits n T →
      ∀ c, Inner T c → three.view ≤ c.view → c.view ≤ one.view → Descends T c three

/-- A committed block at the end of three in line, the first with a certificate. -/
def Anchored (rules : Rules) (T : Trace) (n : NodeId) (three : Block) : Prop :=
  ∃ b one two, Known T b ∧ Link T b one ∧ Link T one two ∧ Link T two three ∧
    three.hash ∈ commits n T ∧
      (rules = .simple → three.view.next = two.view ∧ two.view.next = one.view)

/-- The committed blocks of an instance lead from the genesis block to the last executed one. -/
def CommittedTrail (rules : Rules) (T : Trace) (n : NodeId) (r : Replica) : Prop :=
  ∃ bs tip, r.chain.get? r.executed = some tip ∧ Trail T bs tip ∧
    (tip = .genesis ∨ Anchored rules T n tip) ∧ r.committed = bs.map (·.hash)

variable {C : Cluster} {T T' : Trace} {W : World} {rules : Rules} {seat : Seat} {input : Input}
  {before r r' : Replica} {H H' : List SyncInfo} {es : List Effect} {b one two three : Block}
  {n : NodeId} {h : Hash}

theorem mem_commits : h ∈ commits n T ↔ ∃ e, (n, e) ∈ T ∧ commit? e = some h := by
  unfold commits
  rw [List.mem_filterMap]
  constructor
  · rintro ⟨⟨m, e⟩, hm, he⟩
    dsimp only at he
    split at he
    · rename_i hn
      exact ⟨e, hn ▸ hm, he⟩
    · cases he
  · rintro ⟨e, hm, he⟩
    exact ⟨(n, e), hm, by rw [if_pos rfl, he]⟩

theorem commits_mono (ht : T ⊆ T') (hc : h ∈ commits n T) : h ∈ commits n T' := by
  obtain ⟨e, hm, he⟩ := mem_commits.mp hc
  exact mem_commits.mpr ⟨e, ht hm, he⟩

/-- The ancestors of a known block do not change as the run goes on. -/
theorem descends_anti (hl : AllWarranted C T) (hd : Distinct T') (ht : T ⊆ T') (hb : Known T b)
    (h : Descends T' b c) : Known T c ∧ Descends T b c := by
  induction h with
  | refl => exact ⟨hb, .refl⟩
  | @tail x y _ hxy ih =>
    obtain ⟨hx, hdesc⟩ := ih
    rcases known_cases hl hx with rfl | ⟨q, hj, hp, -, ⟨z, hz, hq, -⟩, -⟩
    · exact absurd hxy genesis_unlinked
    · have hyz : y.hash = z.hash := by rw [← hxy.2.1, hp, hq]
      obtain rfl := hd y z hxy.1 (hz.known.mono ht) hyz
      exact ⟨hz.known, hdesc.tail ⟨hz.known, hxy.2⟩⟩

theorem Steady.anti (hl : AllWarranted C T) (hd : Distinct T') (ht : T ⊆ T') (hs : Steady T' n) :
    Steady T n := by
  intro b one two three hb h₁ h₂ h₃ hcom c hc hv hle
  have hk : Known T c := by
    rcases hc with rfl | ⟨d, -, hdc⟩
    · exact known_genesis
    · exact hdc.1
  exact (descends_anti hl hd ht hk (hs b one two three (hb.mono ht) (h₁.mono ht) (h₂.mono ht)
    (h₃.mono ht) (commits_mono ht hcom) c (hc.mono ht) hv hle)).2

theorem Anchored.mono (ht : T ⊆ T') (ha : Anchored rules T n three) :
    Anchored rules T' n three := by
  obtain ⟨b, one, two, hb, h₁, h₂, h₃, hc, hv⟩ := ha
  exact ⟨b, one, two, hb.mono ht, h₁.mono ht, h₂.mono ht, h₃.mono ht, commits_mono ht hc, hv⟩

/-- The simple rules commit final blocks only, and so do the chained rules while no other branch
has an inner block in the views of the three. -/
theorem final_of_anchored (hl : AllWarranted C T) (hd : Distinct T) (ho : Overlap C)
    (hr : rules = .simple ∨ Steady T n) (ha : b = .genesis ∨ Anchored rules T n b) :
    Final T b := by
  rcases ha with rfl | ⟨d, one, two, hk, h₁, h₂, h₃, hc, hv⟩
  · exact final_genesis hl hd ho
  · have hone := (link_spec hl hd hk h₁).1
    refine final_of_unchallenged hl hd ho ?_
    rcases hr with hr | hr
    · exact unchallenged_of_consecutive hl hd ho h₂ h₃ hone (hv hr).1 (hv hr).2
    · exact ⟨two, one, h₃, h₂, hone, hr d one two b hk h₁ h₂ h₃ hc⟩

theorem commits_append (n : NodeId) (T T' : Trace) :
    commits n (T ++ T') = commits n T ++ commits n T' := List.filterMap_append

theorem commits_tag (n : NodeId) (es : List Effect) :
    commits n (tag n es) = es.filterMap commit? := by
  unfold commits tag
  rw [List.filterMap_map]
  exact List.filterMap_congr fun e _ => if_pos rfl

theorem commits_tag_of_ne {m : NodeId} (hn : n ≠ m) (es : List Effect) :
    commits m (tag n es) = [] := by
  unfold commits tag
  rw [List.filterMap_map]
  exact List.filterMap_eq_nil_iff.mpr fun e _ => if_neg hn

theorem commit?_settlement (bs : List Block) :
    (settlement bs).filterMap commit? = bs.reverse.map (·.hash) := by
  unfold settlement
  rw [List.filterMap_map, ← List.filterMap_eq_map]
  rfl

theorem commit?_of_idle {e : Effect} (he : Idle e) : commit? e = none := by
  unfold commit?
  split
  · exact he.elim
  · rfl

theorem committedTrail_initial : CommittedTrail rules [] n {} :=
  ⟨[], .genesis, List.find?_cons_of_pos (decide_eq_true rfl), .root, .inl rfl, rfl⟩

theorem CommittedTrail.frame (ht : T ⊆ T')
    (hg : ∀ h b, r.chain.get? h = some b → r'.chain.get? h = some b)
    (he : r'.executed = r.executed) (hc : r'.committed = r.committed)
    (hs : CommittedTrail rules T n r) : CommittedTrail rules T' n r' := by
  obtain ⟨bs, tip, hget, htr, ha, hm⟩ := hs
  exact ⟨bs, tip, by rw [he]; exact hg _ _ hget, Trails.mono ht htr,
    ha.imp_right (Anchored.mono ht),
    hc.trans hm⟩

theorem act_commits (ha : Act rules seat before input r H r' es H') :
    (r'.executed = r.executed ∧ r'.committed = r.committed ∧ es.filterMap commit? = [] ∧
      ∀ h b, r.chain.get? h = some b → r'.chain.get? h = some b) ∨
    ∃ origin b one two three, input = .message origin (.propose ⟨b⟩) ∧
      r.chain.justified? b = some one ∧ r.chain.justified? one = some two ∧
      r.chain.justified? two = some three ∧ rules.completes one two three = true ∧
      (fresh r three).length ≠ (r.chain.lineage three).length ∧
      r' = settle (fresh r three) r ∧ es = settlement (fresh r three) := by
  cases ha with
  | commit offered ancestry certifies recertifies completes stored complete =>
    exact .inr ⟨_, _, _, _, _, offered, certifies, recertifies, stored, completes, complete,
      rfl, rfl⟩
  | quiet signatures kept idle =>
    exact .inl ⟨rfl, rfl, List.filterMap_eq_nil_iff.mpr fun e he => commit?_of_idle (idle e he),
      fun _ _ hg => hg⟩
  | vote offered ancestry first allowed covered informed mail =>
    refine .inl ⟨rfl, rfl, List.filterMap_eq_nil_iff.mpr fun e he => ?_, fun _ _ hg => hg⟩
    rcases List.mem_cons.mp he with rfl | he
    · rfl
    · rcases mail e he with he | ⟨leader, rfl⟩
      · exact commit?_of_idle he
      · rfl
  | propose => exact .inl ⟨rfl, rfl, rfl, fun _ _ hg => get?_insert hg⟩
  | store => exact .inl ⟨rfl, rfl, rfl, fun _ _ hg => get?_insert hg⟩
  | _ => exact .inl ⟨rfl, rfl, rfl, fun _ _ hg => hg⟩

theorem act_committed (ha : Act rules seat before input r H r' es H') :
    r'.committed = r.committed ++ es.filterMap commit? := by
  rcases act_commits ha with ⟨-, hc, he, -⟩ | ⟨_, _, _, _, _, _, _, _, _, _, _, rfl, rfl⟩
  · rw [hc, he, List.append_nil]
  · rw [commit?_settlement]
    rfl

theorem executedView_of_stored (hg : r.chain.get? r.executed = some b) :
    r.executedView = b.view := by
  simp [executedView, hg]

theorem three_mem_fresh (hlen : (fresh r three).length ≠ (r.chain.lineage three).length)
    (hne : fresh r three ≠ []) : ∃ bs, fresh r three = three :: bs := by
  obtain ⟨y, hw, -⟩ := follow_takeWhile hlen
  rcases hw.ends with ⟨he, -⟩ | hbs
  · exact absurd he hne
  · exact hbs

/-- The commit of a block continues the trail of the blocks committed before, as the last of them is
final. -/
theorem committedTrail_settle (hl : AllWarranted C T) (hd : Distinct T) (ho : Overlap C)
    (hr : rules = .simple ∨ Steady T n) (hs : Sound C T seat r) (hc : CommittedTrail rules T n r)
    (hg : r.chain.get? three.hash = some three) (hi : Inner T three) (ht : T ⊆ T')
    (hlen : (fresh r three).length ≠ (r.chain.lineage three).length)
    (ha : fresh r three ≠ [] → Anchored rules T' n three) :
    CommittedTrail rules T' n (settle (fresh r three) r) := by
  obtain ⟨bs, tip, hget, htr, hat, hm⟩ := hc
  have hft := final_of_anchored hl hd ho hr hat
  obtain ⟨y, hw, hy⟩ := follow_takeWhile hlen
  rw [executedView_of_stored hget] at hy
  change Walk r.chain three (fresh r three) y at hw
  cases hfr : fresh r three with
  | nil =>
    exact ⟨bs, tip, hget, Trails.mono ht htr, hat.imp_right (Anchored.mono ht),
      by simpa [settle] using hm⟩
  | cons x xs =>
    have hne : fresh r three ≠ [] := by rw [hfr]; simp
    have hup : ∀ b p, Known T b → Up r.chain b p → Link T b p :=
      fun b p hb => link_of_up hl hs.stored hb
    have hnew : ∀ z ∈ fresh r three, tip.view < z.view := by
      intro z hz
      have hz := List.mem_takeWhile_imp hz
      rw [executedView_of_stored hget] at hz
      exact of_decide_eq_true hz
    obtain ⟨bs', he⟩ := three_mem_fresh hlen hne
    obtain rfl : x = three := (List.cons.inj (hfr.symm.trans he)).1
    -- The walk stops at the first block that is no newer than the tip and does not ask whether it
    -- is the tip. It is, as the tip is final.
    have hcert := inner_certified hl hd hi
    have hdesc := hft.2 x hi (Nat.le_of_lt (hnew x (by rw [hfr]; simp)))
    obtain rfl := walk_stops hl hd ho hup hw hcert hdesc hnew hy
    rw [← hfr]
    refine ⟨bs ++ (fresh r x).reverse, x, ?_, Trails.mono ht (extend hup hw hcert.known htr),
      .inr (ha hne), ?_⟩
    · simpa [settle, hfr] using hg
    · simp [settle, hm]

theorem act_committedTrail (ha : Act rules seat before input r H r' es H') (hi : Received C T input)
    (hd : Distinct (T ++ tag seat.node es)) (ho : Overlap C)
    (hr : rules = .simple ∨ Steady (T ++ tag seat.node es) seat.node)
    (hs : MidTurn C T seat r H) (hc : CommittedTrail rules T seat.node r) :
    CommittedTrail rules (T ++ tag seat.node es) seat.node r' := by
  have hsub := subset_tag T seat.node es
  have hd₀ := hd.anti hsub
  have hr₀ := hr.imp_right (Steady.anti hs.lawful hd hsub)
  rcases act_commits ha with ⟨he, hm, -, hg⟩ |
    ⟨origin, b, one, two, three, rfl, h₁, h₂, h₃, hcomp, hlen, rfl, rfl⟩
  · exact hc.frame hsub hg he hm
  · have hb := hi.known
    have hk₁ := link_of_justified? hs.lawful hs.sound.stored hb h₁
    have hk₂ := link_of_justified? hs.lawful hs.sound.stored hk₁.1 h₂
    have hk₃ := link_of_justified? hs.lawful hs.sound.stored hk₂.1 h₃
    refine committedTrail_settle hs.lawful hd₀ ho hr₀ hs.sound hc (get?_of_justified? h₃)
      (.inr ⟨two, hk₂.1, hk₃⟩) hsub hlen fun hne => ?_
    refine ⟨b, one, two, hb.mono hsub, hk₁.mono hsub, hk₂.mono hsub, hk₃.mono hsub, ?_, ?_⟩
    · obtain ⟨bs, hbs⟩ := three_mem_fresh hlen hne
      rw [commits_append, commits_tag, commit?_settlement, hbs]
      exact List.mem_append_right _ (by simp)
    · rintro rfl
      simpa [Rules.completes] using (Bool.and_eq_true_iff.mp hcomp).2

theorem moves_committed {st : Stage} (hm : Moves rules seat before input ⟨{ state := r }, H⟩ st) :
    st.turn.state.committed = r.committed ++ st.turn.effects.filterMap commit? := by
  induction hm with
  | refl => exact (List.append_nil _).symm
  | tail _ hact ih =>
    cases hact with
    | act ha => rw [act_committed ha, ih, List.filterMap_append, List.append_assoc]

theorem moves_committedTrail {st : Stage} (hseat : seat ∈ C.seats) (hi : Received C T input)
    (hm : Moves rules seat before input ⟨{ state := r }, H⟩ st)
    (hd : Distinct (T ++ tag seat.node st.turn.effects)) (ho : Overlap C)
    (hr : rules = .simple ∨ Steady (T ++ tag seat.node st.turn.effects) seat.node)
    (hs : MidTurn C T seat r H) (hc : CommittedTrail rules T seat.node r) :
    CommittedTrail rules (T ++ tag seat.node st.turn.effects) seat.node st.turn.state := by
  induction hm with
  | refl =>
    rw [tag_nil]
    exact hc
  | @tail st st' hm hact ih =>
    cases hact with
    | @act t H H' r es ha =>
      have hsub := subset_tag (T ++ tag seat.node t.effects) seat.node es
      rw [append_tag] at hd hr ⊢
      have hst := moves_midTurn hseat hi hm (hd.anti hsub) hs
      exact act_committedTrail ha (hi.mono (subset_tag T seat.node t.effects)) hd ho hr hst
        (ih (hd.anti hsub) (hr.imp_right (Steady.anti hst.lawful hd hsub)))

theorem reachable_committed (hw : Reachable rules C W) :
    ∀ seat ∈ C.seats, (W.replica seat.node).committed = commits seat.node W.trace := by
  induction hw with
  | initial => exact fun seat _ => rfl
  | @step W seat input hw hseat ha ih =>
    obtain ⟨H', hm⟩ := turn_moves (reachable_possible hw) ha
    intro t ht
    rw [World.trace_after, commits_append]
    by_cases hn : t.node = seat.node
    · rw [hn, World.replica_after, commits_tag, ← ih seat hseat]
      exact moves_committed hm
    · rw [World.replica_after_of_ne _ _ _ hn, commits_tag_of_ne (Ne.symm hn), List.append_nil]
      exact ih t ht

theorem reachable_committedTrail (hw : Reachable rules C W) (hd : Distinct W.trace)
    (ho : Overlap C) :
    ∀ seat ∈ C.seats, rules = .simple ∨ Steady W.trace seat.node →
      CommittedTrail rules W.trace seat.node (W.replica seat.node) := by
  induction hw with
  | initial => exact fun seat _ _ => committedTrail_initial
  | @step W seat input hw hseat ha ih =>
    have hsub := subset_tag W.trace seat.node
      (input.react rules seat (W.replica seat.node)).effects
    have hp := reachable_possible hw
    have hi := received_of_admitted hp ha
    obtain ⟨hl, hs⟩ := reachable_sound hw (hd.anti hsub)
    obtain ⟨H', hm⟩ := turn_moves hp ha
    intro t ht hr
    have hc := ih (hd.anti hsub) t ht (hr.imp_right (Steady.anti hl hd hsub))
    by_cases hn : t.node = seat.node
    · obtain rfl := C.apart t ht seat hseat hn
      rw [World.replica_after]
      exact moves_committedTrail hseat hi hm hd ho hr ⟨hl, hs t ht, handGenuine_hand hl hi⟩ hc
    · rw [World.replica_after_of_ne _ _ _ hn]
      exact hc.frame hsub (fun _ _ hg => hg) rfl rfl

/-- Of what two instances committed, one continues the other. -/
theorem reachable_agree (hw : Reachable rules C W) (hd : Distinct W.trace) (ho : Overlap C)
    {s t : Seat} (hs : s ∈ C.seats) (ht : t ∈ C.seats)
    (hrs : rules = .simple ∨ Steady W.trace s.node)
    (hrt : rules = .simple ∨ Steady W.trace t.node) :
    (W.replica s.node).committed <+: (W.replica t.node).committed ∨
      (W.replica t.node).committed <+: (W.replica s.node).committed := by
  obtain ⟨hl, -⟩ := reachable_sound hw hd
  obtain ⟨bs, a, -, hta, ha, hca⟩ := reachable_committedTrail hw hd ho s hs hrs
  obtain ⟨cs, b, -, htb, hb, hcb⟩ := reachable_committedTrail hw hd ho t ht hrt
  rw [hca, hcb]
  exact (comparable hd hta htb (final_of_anchored hl hd ho hrs ha)
    (final_of_anchored hl hd ho hrt hb)).imp (fun h => h.map _) (fun h => h.map _)

end Equivocation.Proofs.Commits
