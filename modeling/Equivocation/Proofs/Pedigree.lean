import Equivocation.Proofs.Quorums

namespace Equivocation.Proofs.Pedigree

open Relation Replica Validity Adoption Ancestry Turns Conduct Handling Quorums
open Lockstep (relocked judge_eq)

/-- A stored block carries a certificate for the block. If the instance's own signatures are valid,
then so is the certificate. -/
def CertifiedInStore (seat : Seat) (c : Chain) (x : Block) : Prop :=
  ∃ y ∈ c.blocks, ∃ q, y.justify = some q ∧ q.block = x.hash ∧
    ((∀ h, seat.policy.keys.verify (seat.policy.keys.sign h) h = true) →
      GenesisOrAttested seat.policy q)

/-- The block and all its ancestors down to the genesis block are stored, and the ancestors are
certified. -/
structure AncestryCertified (seat : Seat) (c : Chain) (b : Block) : Prop where
  stored : ∀ x, ReflTransGen (Up c) b x → c.get? x.hash = some x
  rooted : ReflTransGen (Up c) b .genesis
  certified : ∀ x, TransGen (Up c) b x → CertifiedInStore seat c x

/-- The genesis block, or any block of view 0, is found among the ancestors. -/
def ReachesViewZero (c : Chain) (b : Block) : Prop := ∃ root ∈ c.lineage b, root.view = .zero

def Binds : Effect → Prop
  | .publish (.vote _) => True
  | .send _ (.vote _) => True
  | .publish (.commitBlock _ _) => True
  | _ => False

/-- An instance binds itself to known and certified history in a turn. A block that it votes for or
commits is stored with all its ancestors, the ancestors and the committed blocks are certified, and
nothing is stored after the vote or the commit. No commit is skipped for a missing ancestor: what
the rules order along with an eligible block is stored, and is committed unless the last committed
block is of that view or a later one. -/
structure Informed (rules : Rules) (seat : Seat) (input : Input) (r : Replica) (t : Turn Replica) :
    Prop where
  voted : ∀ e ∈ t.effects, ∀ v, cast? e = some v ∨ posted? e = some v →
    ∃ b, t.state.chain.get? v.block = some b ∧ b.view = v.view ∧
      AncestryCertified seat t.state.chain b
  committed : ∀ h v, .publish (.commitBlock h v) ∈ t.effects →
    ∃ b, t.state.chain.get? h = some b ∧ b.view = v ∧ AncestryCertified seat t.state.chain b ∧
      CertifiedInStore seat t.state.chain b
  last : t.effects.Pairwise fun e e' => Binds e → ∀ x, e' ≠ .publish (.insertBlock x)
  walked : ∀ h u, .remark ((Remark.notCommitted h u).record seat.node) ∉ t.effects
  carried : ∀ origin b s h, Eligible seat r input origin b t.state →
    (rules.consequence t.state.chain s b).commit = some h →
      ∃ x, t.state.chain.get? h = some x ∧ AncestryCertified seat t.state.chain x ∧
        CertifiedInStore seat t.state.chain x ∧
          (r.executedView < x.view →
            .publish (.commitBlock h x.view) ∈ t.effects ∧ t.state.executed = h)

def ordered (rules : Rules) (b : Block) (r : Replica) : List Block :=
  ((rules.consequence r.chain r.safety b).commit.bind r.chain.get?).elim [] (fresh r)

/-- The walk of the commit that a block brings about meets no unknown block. -/
def Unbroken (rules : Rules) (b : Block) (r : Replica) : Prop :=
  ∀ h, (rules.consequence r.chain r.safety b).commit = some h →
    ∃ x, r.chain.get? h = some x ∧ (fresh r x).length ≠ (r.chain.lineage x).length

variable {rules : Rules} {seat : Seat} {before r r' : Replica} {input : Input} {t t' : Turn Replica}
  {c : Chain} {a b p x one two three : Block} {origin : ReplicaId} {q : QuorumCertificate}
    {h : Hash}

section Walks

theorem follow_subset (c : Chain) (n : Nat) (b : Block) : c.follow n b ⊆ c.follow (n + 1) b := by
  induction n generalizing b with
  | zero =>
    intro x hx
    rw [List.mem_singleton.mp hx]
    exact List.mem_cons_self
  | succ n ih =>
    rw [Chain.follow, Chain.follow]
    refine List.cons_subset_cons b ?_
    cases c.get? b.parent with
    | none => exact List.Subset.refl _
    | some p => exact ih p

theorem reachesViewZero_of_hasAncestry (hb : c.hasAncestry b = true) : ReachesViewZero c b := by
  unfold Chain.hasAncestry at hb
  split at hb
  · cases hb
  · rename_i root hr
    exact ⟨root, List.mem_of_find?_eq_some hr, by simpa using List.find?_some hr⟩

theorem ReachesViewZero.up (hg : ReachesViewZero c b) (hu : Up c b p) : ReachesViewZero c p := by
  obtain ⟨root, hr, hz⟩ := hg
  have hne : root ≠ b := fun he => hu.1 (he ▸ hz)
  refine ⟨root, ?_, hz⟩
  unfold Chain.lineage at hr ⊢
  cases hs : c.size with
  | zero =>
    rw [hs] at hr
    exact absurd (List.mem_singleton.mp hr) hne
  | succ n =>
    rw [hs, Chain.follow, hu.2] at hr
    exact follow_subset c n p ((List.mem_cons.mp hr).resolve_left hne)

theorem above_of_mem_fresh (hx : x ∈ fresh r b) : r.executedView < x.view := by
  unfold fresh at hx
  have h := List.mem_takeWhile_imp hx
  exact of_decide_eq_true h

/-- A walk that leads back to view 0 comes past the last committed block. -/
theorem ReachesViewZero.complete (hg : ReachesViewZero r.chain b) :
    (fresh r b).length ≠ (r.chain.lineage b).length := by
  intro hl
  obtain ⟨root, hr, hz⟩ := hg
  have he : fresh r b = r.chain.lineage b := (List.takeWhile_prefix _).eq_of_length hl
  rw [← he] at hr
  have hv := above_of_mem_fresh hr
  rw [hz] at hv
  exact Nat.not_lt_zero _ hv

theorem Walk.path {y : Block} {bs : List Block} (hw : Walk c b bs y) :
    ∀ x ∈ bs, ReflTransGen (Up c) b x := by
  induction hw with
  | stop b => exact fun x hx => absurd hx List.not_mem_nil
  | step hu _ ih =>
    intro x hx
    obtain rfl | hx := List.mem_cons.mp hx
    · exact .refl
    · exact .head hu (ih x hx)

theorem ReachesViewZero.path (hg : ReachesViewZero r.chain b) (hx : x ∈ fresh r b) :
    ReflTransGen (Up r.chain) b x := by
  obtain ⟨y, hw, -⟩ := follow_takeWhile hg.complete
  exact Walk.path hw x hx

end Walks

section Links

theorem up_of_justified? (hf : CertifiesParent b) (hj : c.justified? b = some p) : Up c b p := by
  obtain ⟨q, hq, hp⟩ := Option.bind_eq_some_iff.mp hj
  obtain rfl | ⟨hz, q', hq', hparent⟩ := hf
  · cases hq
  · refine ⟨hz, ?_⟩
    rw [hparent, Option.some.inj (hq'.symm.trans hq)]
    exact hp

theorem get?_of_path (hb : c.get? b.hash = some b) (hx : ReflTransGen (Up c) b x) :
    c.get? x.hash = some x := by
  cases hx with
  | refl => exact hb
  | tail _ hu =>
    rw [hash_of_get? hu.2]
    exact hu.2

theorem up_rightUnique (c : Chain) : Relator.RightUnique (Up c) :=
  fun _ _ _ hp hq => Option.some.inj (hp.2.symm.trans hq.2)

theorem not_up_genesis : ¬ Up c .genesis p := fun h => h.1 rfl

/-- What the parent of a stored block rests on is in the block itself. -/
theorem certifiedInStore_of_up (hr : Rooted r)
    (hb : (∀ h, seat.policy.keys.verify (seat.policy.keys.sign h) h = true) → QuorumBacked seat r)
    (hy : r.chain.get? a.hash = some a) (hu : Up r.chain a x) :
    CertifiedInStore seat r.chain x := by
  have hmem := mem_of_get? hy
  obtain rfl | ⟨-, q, hj, hp⟩ := hr.certifies a hmem
  · exact absurd hu not_up_genesis
  · refine ⟨a, hmem, q, hj, ?_, fun hown => (hb hown).carried a hmem q hj⟩
    rw [← hp, hash_of_get? hu.2]

theorem ancestryCertified_of_ancestry (hr : Rooted r)
    (hb : (∀ h, seat.policy.keys.verify (seat.policy.keys.sign h) h = true) → QuorumBacked seat r)
    (hs : r.chain.get? b.hash = some b) (ha : r.chain.hasAncestry b = true) :
    AncestryCertified seat r.chain b where
  stored x hx := get?_of_path hs hx
  rooted := by
    obtain ⟨root, hp, hg⟩ := hasAncestry_path ha
    have ho := get?_of_path hs hp
    rw [hg, hr.origin] at ho
    rwa [Option.some.inj ho]
  certified x hx := by
    obtain ⟨y, hy, hu⟩ := TransGen.tail'_iff.mp hx
    exact certifiedInStore_of_up hr hb (get?_of_path hs hy) hu

theorem AncestryCertified.ancestor (hb : AncestryCertified seat c b)
    (hx : ReflTransGen (Up c) b x) :
    AncestryCertified seat c x where
  stored y hy := hb.stored y (hx.trans hy)
  rooted := by
    obtain h | h := ReflTransGen.total_of_right_unique (up_rightUnique c) hx hb.rooted
    · exact h
    · cases h.cases_head with
      | inl he => rw [← he]
      | inr hu =>
        obtain ⟨y, hu, -⟩ := hu
        exact absurd hu not_up_genesis
  certified y hy := hb.certified y (TransGen.trans_right hx hy)

/-- The certificates that order a commit lead from parent to parent, so the block to commit is an
ancestor. -/
theorem path_of_commit (hr : Rooted r) (hb : CertifiesParent b) {s : Safety}
    (hc : (rules.consequence r.chain s b).commit = some h) :
    ∃ x, r.chain.get? h = some x ∧ TransGen (Up r.chain) b x ∧
      (ReachesViewZero r.chain b → ReachesViewZero r.chain x) := by
  obtain ⟨one, two, three, h₁, h₂, h₃, -, rfl⟩ := consequence_commit hc
  have hf : ∀ b p, r.chain.justified? b = some p → CertifiesParent p :=
    fun b p hp => hr.certifies p (mem_of_get? (get?_of_justified? hp))
  have hu₁ := up_of_justified? hb h₁
  have hu₂ := up_of_justified? (hf _ _ h₁) h₂
  have hu₃ := up_of_justified? (hf _ _ h₂) h₃
  exact ⟨three, get?_of_justified? h₃, .tail (.tail (.single hu₁) hu₂) hu₃,
    fun hg => ((hg.up hu₁).up hu₂).up hu₃⟩

theorem unbroken (hr : Rooted r) (hb : CertifiesParent b) (ha : r.chain.hasAncestry b = true) :
    Unbroken rules b r := by
  intro h hc
  obtain ⟨x, hx, -, hg⟩ := path_of_commit hr hb hc
  exact ⟨x, hx, (hg (reachesViewZero_of_hasAncestry ha)).complete⟩

theorem path_of_ordered (hr : Rooted r) (hb : CertifiesParent b) (ha : r.chain.hasAncestry b = true)
    (hx : x ∈ ordered rules b r) : TransGen (Up r.chain) b x := by
  unfold ordered at hx
  cases hc : (rules.consequence r.chain r.safety b).commit with
  | none =>
    rw [hc] at hx
    cases hx
  | some h =>
    obtain ⟨y, hy, hp, hg⟩ := path_of_commit hr hb hc
    rw [hc, Option.bind_some, hy] at hx
    exact hp.trans_left ((hg (reachesViewZero_of_hasAncestry ha)).path hx)

theorem head?_fresh_of_above (hx : r.executedView < x.view) : (fresh r x).head? = some x := by
  unfold fresh Chain.lineage
  cases r.chain.size with
  | zero => simp [Chain.follow, hx]
  | succ n => simp [Chain.follow, hx]

theorem commit_consequence (rules : Rules) (c : Chain) (s s' : Safety) (b : Block) :
    (rules.consequence c s b).commit = (rules.consequence c s' b).commit := by
  unfold Rules.consequence
  split
  · rfl
  · split <;> rfl

end Links

section Judging

theorem commit_eq (hx : t.state.chain.get? h = some x)
    (hl : (fresh t.state x).length ≠ (t.state.chain.lineage x).length) :
    commit seat h t =
      { t with
        state := settle (fresh t.state x) t.state
        effects := t.effects ++ settlement (fresh t.state x) } := by
  unfold commit
  rw [hx]
  dsimp only
  rw [if_neg (show ¬ ((t.state.chain.lineage x).takeWhile
    fun y => t.state.executedView < y.view).length = _ from hl), foldl_commitBlock]
  rfl

def VoteEffect (seat : Seat) (b : Block) (e : Effect) : Prop :=
  e = .publish (.vote ⟨b.view, b.hash, seat.policy.keys.sign b.hash⟩) ∨
    (∃ l, e = .send (.replica l) (.vote ⟨b.view, b.hash, seat.policy.keys.sign b.hash⟩)) ∨
      Incidental seat e

theorem castVote_voteEffect (b : Block) (t : Turn Replica) :
    (castVote seat b t).state.executed = t.state.executed ∧
      ∃ es, (castVote seat b t).effects = t.effects ++ es ∧ ∀ e ∈ es, VoteEffect seat b e := by
  have hm : ∀ e, VoteEffect seat b e → ∀ e' ∈
      [.publish (.vote ⟨b.view, b.hash, seat.policy.keys.sign b.hash⟩)] ++ [e],
      VoteEffect seat b e' := by
    intro e he e' he'
    obtain he' | he' := List.mem_append.mp he'
    · exact .inl (List.mem_singleton.mp he')
    · rwa [List.mem_singleton.mp he']
  unfold castVote
  dsimp only
  split
  · rename_i l _
    exact ⟨rfl, _, List.append_assoc _ _ _, hm _ (.inr (.inl ⟨l, rfl⟩))⟩
  · exact ⟨rfl, _, List.append_assoc _ _ _,
      hm _ (.inr (.inr fun _ _ => record_ne_notCommitted (fun _ _ h => by cases h) _ _ _))⟩

theorem incidental_remarks (c : Rules.Consequence) :
    ∀ e ∈ c.remarks.map .remark, Incidental seat e := by
  intro e he
  obtain ⟨r, hr, rfl⟩ := List.mem_map.mp he
  unfold Rules.Consequence.remarks at hr
  split at hr
  · cases hr
  · rw [List.mem_singleton.mp hr]
    intro _ _ h
    cases congrArg LogRecord.level h

/-- What judging a block adds to a turn if no block is missing: remarks on the lock, the commits
that the rules order, and perhaps the vote. -/
theorem judge_effects (hu : Unbroken rules b t.state) :
    (judge rules seat b t).state.executed =
        ((ordered rules b t.state).head?.map (·.hash)).getD t.state.executed ∧
      ∃ rs es, (judge rules seat b t).effects =
          t.effects ++ (rs ++ settlement (ordered rules b t.state) ++ es) ∧
        (∀ e ∈ rs, Incidental seat e) ∧ ∀ e ∈ es, VoteEffect seat b e := by
  have hp := @incidental_remarks seat (rules.consequence t.state.chain t.state.safety b)
  unfold Unbroken at hu
  unfold ordered
  rw [judge_eq rfl rfl]
  generalize rules.consequence t.state.chain t.state.safety b = c at hu hp ⊢
  generalize hbs : (c.commit.bind t.state.chain.get?).elim [] (fresh t.state) = bs
  have hs : ∃ t', c.commit.elim (relocked c t) (commit seat · (relocked c t)) = t' ∧
      t'.state.executed = (bs.head?.map (·.hash)).getD t.state.executed ∧
      t'.effects = t.effects ++ (c.remarks.map .remark ++ settlement bs) := by
    rw [← hbs]
    cases hc : c.commit with
    | none => exact ⟨_, rfl, rfl, by simp [relocked, settlement]⟩
    | some h =>
      obtain ⟨x, hx, hl⟩ := hu h hc
      rw [Option.bind_some, hx]
      exact ⟨_, @commit_eq seat (relocked c t) x h hx hl, rfl, List.append_assoc _ _ _⟩
  obtain ⟨t', ht, hexec, heff⟩ := hs
  rw [ht]
  split
  · obtain ⟨hexec', es, heff', hes⟩ := @castVote_voteEffect seat b t'
    refine ⟨hexec'.trans hexec, _, es, ?_, hp, hes⟩
    rw [heff', heff, List.append_assoc]
  · refine ⟨hexec, _, [], ?_, hp, fun e he => absurd he List.not_mem_nil⟩
    rw [heff, List.append_nil]

end Judging

section Turns

def Unbound (seat : Seat) (e : Effect) : Prop :=
  Incidental seat e ∨ ∃ b, e = .publish (.insertBlock b)

theorem preparations_unbound (hc : Preparations seat before input t t')
    (ht : ∀ e ∈ t.effects, Unbound seat e) :
    ∀ e ∈ t'.effects, Unbound seat e := by
  have hins : ∀ (b : Block) (t : Turn Replica), (∀ e ∈ t.effects, Unbound seat e) →
      ∀ e ∈ (insertBlock b t).effects, Unbound seat e := by
    intro b t h e he
    rw [insertBlock_eq] at he
    obtain he | he := List.mem_append.mp he
    · exact h e he
    · unfold insertion at he
      split at he
      · cases he
      · exact .inr ⟨b, List.mem_singleton.mp he⟩
  induction hc with
  | refl => exact ht
  | tail _ hc ih =>
    cases hc with
    | emit plain =>
      intro e he
      obtain he | he := List.mem_append.mp he
      · exact ih e he
      · exact .inl (List.mem_singleton.mp he ▸ plain)
    | propose started => exact hins _ _ ih
    | store offered possible carried checked => exact hins _ _ ih
    | giveUp =>
      intro e he
      unfold Replica.giveUp Turn.send Turn.publish Turn.emit at he
      simp only [List.mem_append, List.mem_singleton] at he
      obtain (he | rfl) | rfl := he
      · exact ih e he
      · exact .inl trivial
      · exact .inl trivial
    | _ => exact ih

theorem Unbound.not_binds {e : Effect} (he : Unbound seat e) : ¬ Binds e := by
  obtain he | ⟨b, rfl⟩ := he
  · cases e with
    | publish e => cases e <;> first | exact id | exact fun _ => he
    | send whom m => cases m <;> first | exact id | exact fun _ => he
    | remark r => exact id
  · exact id

theorem preparations_grow (hc : Preparations seat before input t t') :
    t'.state.executed = t.state.executed ∧
      ∀ h x, t.state.chain.get? h = some x → t'.state.chain.get? h = some x := by
  induction hc with
  | refl => exact ⟨rfl, fun _ _ h => h⟩
  | tail _ hc ih =>
    cases hc with
    | propose started =>
      rw [insertBlock_eq]
      exact ⟨ih.1, fun h x hx => get?_insert (ih.2 h x hx)⟩
    | store offered possible carried checked =>
      rw [insertBlock_eq]
      exact ⟨ih.1, fun h x hx => get?_insert (ih.2 h x hx)⟩
    | _ => exact ih

theorem executedView_grown (hr : Rooted r) (he : r'.executed = r.executed)
    (hg : ∀ h x, r.chain.get? h = some x → r'.chain.get? h = some x) :
    r'.executedView = r.executedView := by
  obtain ⟨x, hx⟩ := Option.isSome_iff_exists.mp hr.executed
  unfold executedView
  rw [he, hg _ _ hx, hx]

theorem effects_cases (hr : Rooted t.state) (hb : CertifiesParent b)
    (ha : t.state.chain.hasAncestry b = true) (ht : ∀ e ∈ t.effects, Unbound seat e) :
    ∀ e ∈ (judge rules seat b t).effects, Unbound seat e ∨ VoteEffect seat b e ∨
      ∃ x, TransGen (Up t.state.chain) b x ∧ e = .publish (.commitBlock x.hash x.view) := by
  obtain ⟨-, rs, es, he, hrs, hes⟩ := @judge_effects rules seat t b (unbroken hr hb ha)
  intro e hm
  rw [he] at hm
  obtain hm | hm := List.mem_append.mp hm
  · exact .inl (ht e hm)
  · obtain hm | hm := List.mem_append.mp hm
    · obtain hm | hm := List.mem_append.mp hm
      · exact .inl (.inl (hrs e hm))
      · obtain ⟨x, hx, rfl⟩ := List.mem_map.mp hm
        exact .inr (.inr ⟨x, path_of_ordered hr hb ha (List.mem_reverse.mp hx), rfl⟩)
    · exact .inr (.inl (hes e hm))

/-- Nothing is stored once the instance has bound itself. -/
theorem effects_ordered (hr : Rooted t.state) (hb : CertifiesParent b)
    (ha : t.state.chain.hasAncestry b = true) (ht : ∀ e ∈ t.effects, Unbound seat e) :
    (judge rules seat b t).effects.Pairwise
      fun e e' => Binds e → ∀ x, e' ≠ .publish (.insertBlock x) := by
  obtain ⟨-, rs, es, he, hrs, hes⟩ := @judge_effects rules seat t b (unbroken hr hb ha)
  have hplain : ∀ e x, Incidental seat e → e ≠ .publish (.insertBlock x) := by
    rintro _ x h rfl
    exact h
  have hlast : ∀ e ∈ rs ++ settlement (ordered rules b t.state) ++ es,
      ∀ x, e ≠ .publish (.insertBlock x) := by
    intro e hm x
    obtain hm | hm := List.mem_append.mp hm
    · obtain hm | hm := List.mem_append.mp hm
      · exact hplain e x (hrs e hm)
      · obtain ⟨y, -, rfl⟩ := List.mem_map.mp hm
        exact fun h => by cases h
    · obtain rfl | ⟨l, rfl⟩ | h := hes e hm
      · exact fun h => by cases h
      · exact fun h => by cases h
      · exact hplain e x h
  rw [he]
  refine List.pairwise_append.mpr ⟨?_, ?_, fun e hm _ _ hbinds => ?_⟩
  · exact List.pairwise_of_forall_mem_list fun e hm _ _ h => absurd h (ht e hm).not_binds
  · exact List.pairwise_of_forall_mem_list fun e _ e' hm _ => hlast e' hm
  · exact absurd hbinds (ht e hm).not_binds

end Turns

section Histories

theorem binds_of_voteEffect {e : Effect} {v : Vote} (hv : cast? e = some v ∨ posted? e = some v) :
    Binds e := by
  cases e with
  | publish e =>
    cases e with
    | vote v => trivial
    | _ => exact hv.elim (fun h => by cases h) fun h => by cases h
  | send whom m =>
    cases m with
    | vote v => trivial
    | _ => exact hv.elim (fun h => by cases h) fun h => by cases h
  | remark r => exact hv.elim (fun h => by cases h) fun h => by cases h

theorem vote_of_voteEffect {e : Effect} {v : Vote} (he : VoteEffect seat b e)
    (hv : cast? e = some v ∨ posted? e = some v) :
    v = ⟨b.view, b.hash, seat.policy.keys.sign b.hash⟩ := by
  obtain rfl | ⟨l, rfl⟩ | he := he
  · exact hv.elim (fun h => (Option.some.inj h).symm) fun h => by cases h
  · exact hv.elim (fun h => by cases h) fun h => (Option.some.inj h).symm
  · exact absurd (binds_of_voteEffect hv) (Unbound.not_binds (.inl he))

theorem not_skipped {u : Hash} :
    ¬ Unbound seat (.remark ((Remark.notCommitted h u).record seat.node)) := by
  rintro (hp | ⟨b, hp⟩)
  · exact hp h u rfl
  · cases hp

theorem carries_commit (hr : Rooted t.state) (hb : CertifiesParent b)
    (ha : t.state.chain.hasAncestry b = true)
    (hc : (rules.consequence t.state.chain t.state.safety b).commit = some h)
    (hx : t.state.chain.get? h = some x) (hlt : t.state.executedView < x.view) :
    .publish (.commitBlock h x.view) ∈ (judge rules seat b t).effects ∧
      (judge rules seat b t).state.executed = h := by
  obtain ⟨hexec, rs, es, heff, -⟩ := @judge_effects rules seat t b (unbroken hr hb ha)
  have ho : ordered rules b t.state = fresh t.state x := by
    unfold ordered
    rw [hc, Option.bind_some, hx]
    rfl
  have hh := head?_fresh_of_above hlt
  rw [ho, hh] at hexec
  refine ⟨?_, hexec.trans (hash_of_get? hx)⟩
  rw [heff, ho, ← hash_of_get? hx]
  refine List.mem_append_right _ (List.mem_append_left _ (List.mem_append_right _ ?_))
  exact List.mem_map.mpr ⟨x, List.mem_reverse.mpr (List.mem_of_mem_head? hh), rfl⟩

theorem passed_informed (hu : ∀ e ∈ t.effects, Unbound seat e)
    (hn : ∀ origin b, ¬ Eligible seat r input origin b t.state) :
    Informed rules seat input r t where
  voted e he _ hv := absurd (binds_of_voteEffect hv) (hu e he).not_binds
  committed _ _ he := ((hu _ he).not_binds trivial).elim
  last := List.pairwise_of_forall_mem_list fun e he _ _ h => absurd h (hu e he).not_binds
  walked _ _ he := not_skipped (hu _ he)
  carried origin b _ _ he := absurd he (hn origin b)

theorem judged_informed (hr : Rooted t.state)
    (hb : (∀ h, seat.policy.keys.verify (seat.policy.keys.sign h) h = true) →
      QuorumBacked seat t.state)
    (hu : ∀ e ∈ t.effects, Unbound seat e) (he : Eligible seat r input origin b t.state)
    (hs : t.state.chain.get? b.hash = some b) (hv : t.state.executedView = r.executedView) :
    Informed rules seat input r (judge rules seat b t) := by
  have hf : CertifiesParent b := .inr (certifiesParent_of_possible he.possible)
  have hframe := (@judge_framed rules seat b t).chain
  have hcases := @effects_cases rules seat t b hr hf he.ancestry hu
  have hp := ancestryCertified_of_ancestry hr hb hs he.ancestry
  refine ⟨?_, ?_, effects_ordered hr hf he.ancestry hu, ?_, ?_⟩
  · intro e hm v hv
    rw [hframe]
    obtain h | h | ⟨x, -, rfl⟩ := hcases e hm
    · exact absurd (binds_of_voteEffect hv) h.not_binds
    · rw [vote_of_voteEffect h hv]
      exact ⟨b, hs, rfl, hp⟩
    · exact hv.elim (fun h => by cases h) fun h => by cases h
  · intro h v hm
    rw [hframe]
    obtain h | h | ⟨x, hx, h⟩ := hcases _ hm
    · exact absurd trivial h.not_binds
    · obtain h | ⟨l, h⟩ | h := h
      · cases h
      · cases h
      · exact h.elim
    · cases h
      exact ⟨x, hp.stored x hx.to_reflTransGen, rfl, hp.ancestor hx.to_reflTransGen,
        hp.certified x hx⟩
  · intro h u hm
    obtain h | h | ⟨x, hx, h⟩ := hcases _ hm
    · exact not_skipped h
    · obtain h | ⟨l, h⟩ | h := h
      · cases h
      · cases h
      · exact not_skipped (.inl h)
    · cases h
  · intro origin' b' s h he' hc
    cases he.offered.symm.trans he'.offered
    rw [hframe] at hc ⊢
    rw [commit_consequence rules _ s t.state.safety] at hc
    obtain ⟨x, hx, hpath, -⟩ := path_of_commit hr hf hc
    exact ⟨x, hx, hp.ancestor hpath.to_reflTransGen, hp.certified x hpath, fun hlt =>
      carries_commit hr hf he.ancestry hc hx (hv ▸ hlt)⟩

variable (rules seat)

/-- Whatever an instance has been fed before, it binds itself to known and certified history,
provided that a block it receives does not share its hash with another stored one. -/
theorem binds_to_known_history (inputs : List Input) (input : Input)
    (hd : ∀ origin p, input = .message origin (.propose p) →
      ∀ x ∈ (input.react rules seat (chronicle rules seat inputs).state).state.chain.blocks,
        x.hash = p.block.hash → x = p.block) :
    Informed rules seat input (chronicle rules seat inputs).state
      (input.react rules seat (chronicle rules seat inputs).state) := by
  have hr := chronicle_rooted rules seat inputs
  have hb := fun hown => @chronicle_quorumBacked seat hown rules inputs
  generalize (chronicle rules seat inputs).state = r at hr hb hd ⊢
  have ho := react_turnOutcome rules seat input r
  generalize input.react rules seat r = t at ho hd ⊢
  cases ho with
  | passed calls ineligible =>
    exact passed_informed (preparations_unbound calls fun e he => absurd he List.not_mem_nil)
      ineligible
  | @judged t' origin b calls eligible stored =>
    obtain ⟨hexec, hgrown⟩ := preparations_grow calls
    obtain ⟨x, hx⟩ := Option.isSome_iff_exists.mp stored
    have hxb : x = b := by
      refine hd origin ⟨b⟩ eligible.offered x ?_ (hash_of_get? hx)
      rw [(judge_framed b t').chain]
      exact mem_of_get? hx
    rw [hxb] at hx
    exact judged_informed (preparations_rooted calls hr)
      (fun hown => preparations_quorumBacked hown calls hr (hb hown))
      (preparations_unbound calls fun e he => absurd he List.not_mem_nil) eligible hx
      (executedView_grown hr hexec hgrown)

end Histories

open Labels (plainSeat plainSignatures first)

def lineSeat : Seat := { plainSeat with leaders := [2, 2, 2, 2].map .ofNat }

def childOf (b : Block) : Block :=
  .ofContents ⟨b.hash, some ⟨b.view, b.hash, plainSignatures b.hash⟩, [], b.view.next, .ofNat 2⟩

def fourth : Block := childOf (childOf (childOf first))

def line : List Input :=
  [.start, Labels.proposal first, Labels.proposal (childOf first),
    Labels.proposal (childOf (childOf first))]

theorem block_of_propose {b : Block} {origin : ReplicaId} {p : Proposal}
    (h : Labels.proposal b = .message origin (.propose p)) : p.block = b := by
  unfold Labels.proposal at h
  cases h
  rfl

/-- The instance votes for the fourth block and commits the first one. -/
theorem binds_to_known_history_fourth :
    (((Labels.proposal fourth).react .chained lineSeat
        (chronicle .chained lineSeat line).state).effects.filterMap cast?).map (·.block) =
        [fourth.hash] ∧
      .publish (.commitBlock first.hash first.view) ∈
        ((Labels.proposal fourth).react .chained lineSeat
          (chronicle .chained lineSeat line).state).effects ∧
      Informed .chained lineSeat (Labels.proposal fourth) (chronicle .chained lineSeat line).state
        ((Labels.proposal fourth).react .chained lineSeat
          (chronicle .chained lineSeat line).state) := by
  have ht : (((Labels.proposal fourth).react .chained lineSeat
        (chronicle .chained lineSeat line).state).effects.filterMap cast?).map (·.block) =
        [fourth.hash] ∧
      .publish (.commitBlock first.hash first.view) ∈
        ((Labels.proposal fourth).react .chained lineSeat
          (chronicle .chained lineSeat line).state).effects ∧
      ∀ x ∈ ((Labels.proposal fourth).react .chained lineSeat
          (chronicle .chained lineSeat line).state).state.chain.blocks,
        x.hash = fourth.hash → x = fourth := by decide +kernel
  refine ⟨ht.1, ht.2.1, ?_⟩
  refine binds_to_known_history .chained lineSeat line (Labels.proposal fourth) fun origin p h => ?_
  rw [block_of_propose h]
  exact ht.2.2

end Equivocation.Proofs.Pedigree
