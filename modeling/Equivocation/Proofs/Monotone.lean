import Equivocation.Proofs.Handling
import Equivocation.Proofs.Lives

namespace Equivocation.Proofs.Monotone

open Replica Validity Adoption Ancestry Turns Lives Conduct

structure Later (r r' : Replica) : Prop where
  view : r.view ≤ r'.view
  highQc : r.highQc.view ≤ r'.highQc.view
  highTc : ∀ tc, r.highTc = some tc → ∃ tc', r'.highTc = some tc' ∧ tc.view ≤ tc'.view
  locked : r.safety.lockedView r.chain ≤ r'.safety.lockedView r'.chain
  lastVote : r.safety.lastVote ≤ r'.safety.lastVote
  lastProposed : r.lastProposed ≤ r'.lastProposed
  blocks : r.chain.blocks <:+ r'.chain.blocks
  stored : ∀ h b, r.chain.get? h = some b → r'.chain.get? h = some b
  committed : r.committed <+: r'.committed

/-- The blocks that an instance refers to are stored, and it has executed what it has committed. -/
structure ReferencesStored (r : Replica) : Prop where
  locked : ∃ b, r.chain.get? r.safety.locked = some b
  executed : ∃ b, r.chain.get? r.executed = some b
  last : ∀ h, r.committed.getLast? = some h → h = r.executed

/-- A later state in which nothing has come loose. No proposal is ahead of the view, or entering a
view could take the last one back. -/
structure LaterStored (r r' : Replica) : Prop where
  later : Later r r'
  referencesStored : ReferencesStored r'
  paced : r'.lastProposed ≤ r'.view

variable {rules : Rules} {seat : Seat} {before r r' r'' : Replica} {input : Input}
  {H H' : List SyncInfo} {es : List Effect} {st st' : Stage} {b : Block} {s : Safety}
  {c : Chain}

theorem Later.refl (r : Replica) : Later r r where
  view := Nat.le_refl _
  highQc := Nat.le_refl _
  highTc tc ht := ⟨tc, ht, Nat.le_refl _⟩
  locked := Nat.le_refl _
  lastVote := Nat.le_refl _
  lastProposed := Nat.le_refl _
  blocks := List.suffix_refl _
  stored _ _ h := h
  committed := List.prefix_refl _

theorem Later.trans (h : Later r r') (h' : Later r' r'') : Later r r'' where
  view := Nat.le_trans h.view h'.view
  highQc := Nat.le_trans h.highQc h'.highQc
  highTc tc ht := by
    obtain ⟨tc', ht', hle⟩ := h.highTc tc ht
    obtain ⟨tc'', ht'', hle'⟩ := h'.highTc tc' ht'
    exact ⟨tc'', ht'', Nat.le_trans hle hle'⟩
  locked := Nat.le_trans h.locked h'.locked
  lastVote := Nat.le_trans h.lastVote h'.lastVote
  lastProposed := Nat.le_trans h.lastProposed h'.lastProposed
  blocks := h.blocks.trans h'.blocks
  stored x b hb := h'.stored x b (h.stored x b hb)
  committed := h.committed.trans h'.committed

theorem LaterStored.trans (h : LaterStored r r') (h' : LaterStored r' r'') : LaterStored r r'' :=
  ⟨h.later.trans h'.later, h'.referencesStored, h'.paced⟩

theorem suffix_insert (c : Chain) (b : Block) : c.blocks <:+ (c.insert b).blocks := by
  unfold Chain.insert
  split
  · exact List.suffix_refl _
  · exact List.suffix_cons b _

/-- The lock does not move when blocks are added, because the locked block is stored. -/
theorem lockedView_insert (hl : ∃ x, c.get? s.locked = some x) (b : Block) :
    s.lockedView (c.insert b) = s.lockedView c := by
  obtain ⟨x, hx⟩ := hl
  rw [lockedView_of_stored hx, lockedView_of_stored (get?_insert hx)]

theorem le_takeTc (held tc? : Option TimeoutCertificate) (tc : TimeoutCertificate)
    (ht : held = some tc) : ∃ tc', takeTc held tc? = some tc' ∧ tc.view ≤ tc'.view := by
  obtain he | ⟨tc', -, he, hn⟩ := takeTc_cases held tc?
  · exact ⟨tc, he.trans ht, Nat.le_refl _⟩
  · exact ⟨tc', he, Nat.le_of_lt (hn tc ht)⟩

theorem Later.store (hm : ReferencesStored r) (b : Block) :
    Later r { r with chain := r.chain.insert b } :=
  { Later.refl r with
    locked := Nat.le_of_eq (congrArg View.toNat (lockedView_insert hm.locked b).symm)
    blocks := suffix_insert r.chain b
    stored := fun _ _ => get?_insert }

theorem ReferencesStored.store (hm : ReferencesStored r) (b : Block) :
    ReferencesStored { r with chain := r.chain.insert b } :=
  { locked := hm.locked.imp fun _ => get?_insert
    executed := hm.executed.imp fun _ => get?_insert
    last := hm.last }

theorem Later.settle (r : Replica) (bs : List Block) : Later r (settle bs r) :=
  { Later.refl r with committed := List.prefix_append _ _ }

theorem ReferencesStored.settle (hm : ReferencesStored r) (hb : r.chain.get? b.hash = some b) :
    ReferencesStored (settle (fresh r b) r) := by
  have hhead := fun y => @Handling.head?_fresh r b y
  unfold Turns.settle
  cases hf : fresh r b with
  | nil =>
    refine ⟨hm.locked, hm.executed, ?_⟩
    rw [List.reverse_nil, List.map_nil, List.append_nil]
    exact hm.last
  | cons y bs =>
    obtain rfl := hhead y (by rw [hf]; rfl)
    refine ⟨hm.locked, ⟨y, hb⟩, fun h hl => ?_⟩
    rw [List.reverse_cons, List.map_append, ← List.append_assoc] at hl
    exact (Option.some.inj (List.getLast?_concat.symm.trans hl)).symm

theorem resign_laterStored (hm : ReferencesStored r) (hp : r.lastProposed ≤ r.view)
    (signatures : SignatureCache) (viewTicks : Nat) :
    LaterStored r
      { r with
        signatures
        viewTicks
        safety :=
          if r.safety.lastVote < r.view then { r.safety with lastVote := r.view }
          else r.safety } := by
  split
  · rename_i hv
    exact ⟨{ Later.refl r with lastVote := Nat.le_of_lt hv }, { hm with }, hp⟩
  · exact ⟨{ Later.refl r with }, { hm with }, hp⟩

theorem act_laterStored (ha : Act rules seat before input r H r' es H') (hm : ReferencesStored r)
    (hp : r.lastProposed ≤ r.view) : LaterStored r r' := by
  cases ha with
  | quiet | collectVote | certify | collectTimeout | count | greet =>
    exact ⟨{ Later.refl r with }, { hm with }, hp⟩
  | tear held timed voted newer void =>
    refine ⟨{ Later.refl r with highTc := fun tc ht => ?_ }, { hm with }, hp⟩
    exact ⟨_, rfl, Nat.le_of_lt (newer tc ht)⟩
  | adopt held certified past valid =>
    exact ⟨{ Later.refl r with highQc := le_takeQc _ _, highTc := le_takeTc _ _ }, { hm with }, hp⟩
  | @climb s v held certified ahead valid =>
    have hv : r.view ≤ v.next := Nat.le_trans ahead (View.le_next v)
    exact ⟨{ Later.refl r with view := hv, highQc := le_takeQc _ _, highTc := le_takeTc _ _ },
      { hm with }, Nat.le_trans hp hv⟩
  | propose started led =>
    exact ⟨{ Later.store hm (nextBlock seat r) with lastProposed := hp },
      { hm.store (nextBlock seat r) with }, Nat.le_refl _⟩
  | @store origin b q =>
    exact ⟨Later.store hm b, hm.store b, hp⟩
  | @relock origin b one two offered certifies recertifies newer =>
    have hstored := get?_of_justified? recertifies
    have hlocked : ({ r.safety with locked := two.hash } : Safety).lockedView r.chain = two.view :=
      lockedView_of_stored hstored
    exact ⟨{ Later.refl r with locked := hlocked ▸ Nat.le_of_lt newer },
      { hm with locked := ⟨two, hstored⟩ }, hp⟩
  | commit offered ancestry certifies recertifies completes stored complete =>
    exact ⟨Later.settle r _, hm.settle (get?_of_justified? stored), hp⟩
  | vote offered ancestry first =>
    exact ⟨{ Later.refl r with lastVote := Nat.le_of_lt first }, { hm with }, hp⟩
  | giveUp started => exact resign_laterStored hm hp _ r.viewTicks

theorem moves_laterStored (hm : Moves rules seat before input st st')
    (hr : ReferencesStored st.turn.state) (hp : st.turn.state.lastProposed ≤ st.turn.state.view) :
    LaterStored st.turn.state st'.turn.state := by
  induction hm with
  | refl => exact ⟨Later.refl _, hr, hp⟩
  | tail _ hact ih =>
    cases hact with
    | act ha => exact ih.trans (act_laterStored ha ih.referencesStored ih.paced)

theorem tick_laterStored (seat : Seat) (hm : ReferencesStored r) (hp : r.lastProposed ≤ r.view) :
    LaterStored r (Replica.tick seat r).state := by
  unfold Replica.tick
  split
  · exact resign_laterStored hm hp _ 0
  · exact ⟨{ Later.refl r with }, { hm with }, hp⟩

theorem react_laterStored (rules : Rules) (seat : Seat) (input : Input) (hm : ReferencesStored r)
    (hp : r.lastProposed ≤ r.view) : LaterStored r (input.react rules seat r).state := by
  by_cases hi : Regular input
  · cases input with
    | tick => exact tick_laterStored seat hm hp
    | start | message =>
      obtain ⟨H', hmoves⟩ := @react_moves rules seat _ r hi nofun
      exact moves_laterStored hmoves hm hp
  · rw [react_irregular rules seat r hi]
    exact ⟨Later.refl r, hm, hp⟩

theorem referencesStored_initial : ReferencesStored {} := by
  have hg : Chain.initial.get? Block.genesisHash = some .genesis :=
    List.find?_cons_of_pos (decide_eq_true rfl)
  exact ⟨⟨_, hg⟩, ⟨_, hg⟩, nofun⟩

theorem chronicle_laterStored (rules : Rules) (seat : Seat) (inputs more : List Input)
    (hm : ReferencesStored (chronicle rules seat inputs).state)
    (hp : (chronicle rules seat inputs).state.lastProposed ≤
      (chronicle rules seat inputs).state.view) :
    LaterStored (chronicle rules seat inputs).state
      (chronicle rules seat (inputs ++ more)).state := by
  induction more using List.reverseRecOn with
  | nil =>
    rw [List.append_nil]
    exact ⟨Later.refl _, hm, hp⟩
  | append_singleton more input ih =>
    rw [← List.append_assoc, chronicle_concat]
    exact ih.trans (react_laterStored rules seat input ih.referencesStored ih.paced)

/-- Views, certificates, lock, votes and proposals never go back, the store and the list of commits
only grow, and they have what the instance refers to: under both variants of the rules, whatever an
instance is made to take turns on. -/
theorem state_monotone (rules : Rules) (seat : Seat) (inputs more : List Input) :
    Later (chronicle rules seat inputs).state (chronicle rules seat (inputs ++ more)).state ∧
      ReferencesStored (chronicle rules seat inputs).state := by
  have hinputs : LaterStored {} (chronicle rules seat inputs).state :=
    chronicle_laterStored rules seat [] inputs referencesStored_initial (Nat.le_refl _)
  exact
    ⟨(chronicle_laterStored rules seat inputs more hinputs.referencesStored hinputs.paced).later,
    hinputs.referencesStored⟩

end Equivocation.Proofs.Monotone
