import Equivocation.Proofs.Ancestry
import Mathlib.Data.List.Count

namespace Equivocation.Proofs.Lineage

open Relation Ancestry

def Parent (c : Chain) (b p : Block) : Prop := c.get? b.parent = some p

/-- The view of a block is greater than that of its parent, if the parent is stored. -/
def Rises (c : Chain) (b : Block) : Prop := ∀ p ∈ c.get? b.parent, p.view < b.view

instance (c : Chain) (b : Block) : Decidable (Rises c b) :=
  inferInstanceAs (Decidable (∀ p ∈ c.get? b.parent, p.view < b.view))

def ViewsRise (c : Chain) : Prop := ∀ b ∈ c.blocks, Rises c b

instance (c : Chain) : Decidable (ViewsRise c) :=
  inferInstanceAs (Decidable (∀ b ∈ c.blocks, Rises c b))

def stored (bs : List Block) : Chain := bs.foldl Chain.insert .initial

/-- A loop up the stored parents. It ends at the first block that stops it, with the answer that
this block gives, or with the answer no where a parent is unknown. -/
inductive Climb (c : Chain) (stop answer : Block → Bool) : Block → Bool → Prop
  | stop {b : Block} : stop b = true → Climb c stop answer b (answer b)
  | lost {b : Block} : stop b = false → c.get? b.parent = none → Climb c stop answer b false
  | up {b p : Block} {a : Bool} :
    stop b = false → Parent c b p → Climb c stop answer p a → Climb c stop answer b a

def atBottom (b : Block) : Bool := b.view = .zero

/-- Where the search for an ancestor with hash `h` ends that is stored as `target`. -/
def atLevel (target : Block) (h : Hash) (b : Block) : Bool := b.hash = h ∨ b.view ≤ target.view

def hasHash (h : Hash) (b : Block) : Bool := b.hash = h

/-- Both searches from a block come to an end, and their answers tell whether there is a line of
stored parents to the block looked for. The genesis block is told by its hash and its view; that it
is `b` itself, and not another block with the same hash, only matters where no link is followed. -/
structure ExactSearches (c : Chain) (b : Block) : Prop where
  rootSearch : ∀ a, Climb c atBottom Block.isGenesis b a ↔ a = c.hasAncestry b
  rooted : c.hasAncestry b = true ↔
    ∃ g, ReflTransGen (Parent c) b g ∧ g.isGenesis = true ∧ g.view = .zero
  descended : (b.isGenesis = true → b = .genesis) →
    (c.hasAncestry b = true ↔ ReflTransGen (Parent c) b .genesis)
  search : ∀ h target, c.get? h = some target →
    ∀ a, Climb c (atLevel target h) (hasHash h) b a ↔ a = c.reaches b h
  unknown : ∀ h, c.get? h = none → c.reaches b h = false
  reached : ∀ h, c.reaches b h = true ↔
    (∃ target, c.get? h = some target) ∧ ∃ x, ReflTransGen (Parent c) b x ∧ x.hash = h

variable {c : Chain} {b p x target : Block} {h : Hash} {stop answer : Block → Bool} {a a' : Bool}

section Store

theorem get?_genesis (bs : List Block) :
    (stored bs).get? Block.genesisHash = some .genesis := by
  have hkept : ∀ (bs : List Block) (c : Chain), c.get? Block.genesisHash = some .genesis →
      (bs.foldl Chain.insert c).get? Block.genesisHash = some .genesis := by
    intro bs
    induction bs with
    | nil => exact fun c hc => hc
    | cons b bs ih => exact fun c hc => ih (c.insert b) (get?_insert hc)
  exact hkept bs .initial (List.find?_cons_of_pos (decide_eq_true rfl))

theorem ViewsRise.parent (hs : ViewsRise c) (hp : Parent c b p) : Rises c p :=
  hs p (mem_of_get? hp)

theorem ViewsRise.line (hs : ViewsRise c) (hb : Rises c b) (hx : ReflTransGen (Parent c) b x) :
    Rises c x := by
  induction hx with
  | refl => exact hb
  | tail _ hp _ => exact hs.parent hp

theorem ViewsRise.view_lt (hs : ViewsRise c) (hb : Rises c b) (hx : TransGen (Parent c) b x) :
    x.view < b.view := by
  induction hx using TransGen.head_induction_on with
  | single hp => exact hb x hp
  | head hp _ ih => exact Nat.lt_trans (ih (hs.parent hp)) (hb _ hp)

end Store

section Searches

theorem Climb.unique (hc : Climb c stop answer b a) (hc' : Climb c stop answer b a') : a = a' := by
  induction hc with
  | stop hs =>
    cases hc' with
    | stop => rfl
    | lost hs' => exact absurd (hs.symm.trans hs') nofun
    | up hs' => exact absurd (hs.symm.trans hs') nofun
  | lost hs hn =>
    cases hc' with
    | stop hs' => exact absurd (hs.symm.trans hs') nofun
    | lost => rfl
    | up _ hp => exact absurd (hn.symm.trans hp) nofun
  | up hs hp _ ih =>
    cases hc' with
    | stop hs' => exact absurd (hs.symm.trans hs') nofun
    | lost _ hn => exact absurd (hn.symm.trans hp) nofun
    | up _ hp' hc' =>
      cases hp.symm.trans hp'
      exact ih hc'

/-- A positive answer comes from a block on the line of parents. -/
theorem Climb.sound (hc : Climb c stop answer b a) (ha : a = true) :
    ∃ x, ReflTransGen (Parent c) b x ∧ stop x = true ∧ answer x = true := by
  induction hc with
  | @stop b hb => exact ⟨b, .refl, hb, ha⟩
  | lost => cases ha
  | up _ hp _ ih =>
    obtain ⟨x, hx, h⟩ := ih ha
    exact ⟨x, .head hp hx, h⟩

/-- A block on the line of parents is found if nothing before it stops the loop with another
answer. -/
theorem Climb.complete (hc : Climb c stop answer b a) (hx : ReflTransGen (Parent c) b x)
    (hs : stop x = true) (ha : answer x = true)
    (hbefore : ∀ y, ReflTransGen (Parent c) b y → TransGen (Parent c) y x → stop y = true →
      answer y = true) : a = true := by
  induction hc with
  | @stop b hb =>
    obtain rfl | hx := reflTransGen_iff_eq_or_transGen.mp hx
    · exact ha
    · exact hbefore b .refl hx hb
  | @lost b hb hn =>
    obtain rfl | ⟨p, hp, -⟩ := hx.cases_head
    · exact absurd (hs.symm.trans hb) nofun
    · exact absurd (hn.symm.trans hp) nofun
  | @up b p _ hb hp _ ih =>
    obtain rfl | ⟨p', hp', hx⟩ := hx.cases_head
    · exact absurd (hs.symm.trans hb) nofun
    · cases hp.symm.trans hp'
      exact ih hx fun y hy => hbefore y (.head hp hy)

/-- How many stored blocks are of a view below that of `b`: this bounds the links that can be
followed from `b`. -/
def below (c : Chain) (b : Block) : Nat := c.blocks.countP fun x => x.view < b.view

theorem below_le_size (c : Chain) (b : Block) : below c b ≤ c.size := List.countP_le_length

theorem below_lt (hp : Parent c b p) (hv : p.view < b.view) : below c p < below c b := by
  have hm : p ∈ c.blocks.filter fun x => x.view < b.view :=
    List.mem_filter.mpr ⟨mem_of_get? hp, decide_eq_true hv⟩
  have hlt : ((c.blocks.filter fun x => x.view < b.view).countP fun x => x.view < p.view) <
      (c.blocks.filter fun x => x.view < b.view).length := by
    refine List.countP_lt_length_iff.mpr ⟨p, hm, ?_⟩
    exact decide_eq_false (Nat.lt_irrefl _)
  have he : ((c.blocks.filter fun x => x.view < b.view).countP fun x => x.view < p.view) =
      below c p := by
    rw [List.countP_filter]
    refine List.countP_congr fun x _ => ?_
    have : x.view < p.view → x.view < b.view := fun hx => Nat.lt_trans hx hv
    simpa using this
  rw [he, ← List.countP_eq_length_filter] at hlt
  exact hlt

theorem parent_unknown (hb : Rises c b) (hf : below c b = 0) : c.get? b.parent = none := by
  apply Option.eq_none_iff_forall_not_mem.mpr
  intro p hp
  have hlt := below_lt hp (hb p hp)
  omega

/-- A property of blocks and their lines of parents holds of every block with its lineage. No link
is left out for want of fuel. -/
theorem follow_induction {motive : Block → List Block → Prop} {fuel : Nat} (hs : ViewsRise c)
    (hb : Rises c b) (hf : below c b ≤ fuel)
    (last : ∀ b, c.get? b.parent = none → motive b [b])
    (up : ∀ b p bs, Parent c b p → motive p bs → motive b (b :: bs)) :
    motive b (c.follow fuel b) := by
  induction fuel generalizing b with
  | zero => exact last b (parent_unknown hb (Nat.le_zero.mp hf))
  | succ fuel ih =>
    rw [Chain.follow]
    cases hp : c.get? b.parent with
    | none => exact last b hp
    | some p =>
      have hlt := below_lt hp (hb p hp)
      exact up b p _ hp (ih (hs.parent hp) (by omega))

theorem lineage_induction {motive : Block → List Block → Prop} (hs : ViewsRise c) (hb : Rises c b)
    (last : ∀ b, c.get? b.parent = none → motive b [b])
    (up : ∀ b p bs, Parent c b p → motive p bs → motive b (b :: bs)) : motive b (c.lineage b) :=
  follow_induction hs hb (below_le_size c b) last up

def found (stop answer : Block → Bool) (bs : List Block) : Bool :=
  ((bs.find? stop).map answer).getD false

theorem climb_lineage (hs : ViewsRise c) (hb : Rises c b) :
    Climb c stop answer b (found stop answer (c.lineage b)) := by
  apply lineage_induction (motive := fun b bs => Climb c stop answer b (found stop answer bs)) hs hb
  · intro b hn
    cases hst : stop b with
    | true => simpa [found, hst] using Climb.stop hst
    | false => simpa [found, hst] using Climb.lost hst hn
  · intro b p bs hp hc
    cases hst : stop b with
    | true => simpa [found, hst] using Climb.stop hst
    | false => simpa [found, hst] using Climb.up hst hp hc

theorem hasAncestry_eq (c : Chain) (b : Block) :
    c.hasAncestry b = found atBottom Block.isGenesis (c.lineage b) := by
  unfold Chain.hasAncestry found atBottom
  cases (c.lineage b).find? fun x => x.view = .zero with
  | none => rfl
  | some root => rfl

theorem reaches_eq (ht : c.get? h = some target) (b : Block) :
    c.reaches b h = found (atLevel target h) (hasHash h) (c.lineage b) := by
  unfold Chain.reaches found atLevel hasHash
  rw [ht]
  dsimp only
  cases (c.lineage b).find? fun x => x.hash = h ∨ x.view ≤ target.view with
  | none => rfl
  | some x => rfl

theorem climb_hasAncestry (hs : ViewsRise c) (hb : Rises c b) :
    Climb c atBottom Block.isGenesis b (c.hasAncestry b) := by
  rw [hasAncestry_eq]
  exact climb_lineage hs hb

theorem climb_reaches (hs : ViewsRise c) (hb : Rises c b) (ht : c.get? h = some target) :
    Climb c (atLevel target h) (hasHash h) b (c.reaches b h) := by
  rw [reaches_eq ht]
  exact climb_lineage hs hb

theorem get?_of_transGen (hx : TransGen (Parent c) b x) : c.get? x.hash = some x := by
  obtain ⟨y, -, hp⟩ := TransGen.tail'_iff.mp hx
  rwa [hash_of_get? hp]

theorem hasAncestry_iff (hs : ViewsRise c) (hb : Rises c b) :
    c.hasAncestry b = true ↔
      ∃ g, ReflTransGen (Parent c) b g ∧ g.isGenesis = true ∧ g.view = .zero := by
  have hc := climb_hasAncestry hs hb
  constructor
  · intro ha
    obtain ⟨g, hg, hv, h⟩ := hc.sound ha
    exact ⟨g, hg, h, of_decide_eq_true hv⟩
  · rintro ⟨g, hg, h, hv⟩
    -- The loop does not stop above the root: every block before it has a greater view.
    refine hc.complete hg (decide_eq_true hv) h fun y hy hyg hstop => ?_
    have hlt := hs.view_lt (hs.line hb hy) hyg
    rw [of_decide_eq_true hstop] at hlt
    exact absurd hlt (Nat.not_lt_zero _)

theorem reaches_iff (hs : ViewsRise c) (hb : Rises c b) (ht : c.get? h = some target) :
    c.reaches b h = true ↔ ∃ x, ReflTransGen (Parent c) b x ∧ x.hash = h := by
  have hc := climb_reaches hs hb ht
  constructor
  · intro ha
    obtain ⟨x, hx, -, h⟩ := hc.sound ha
    exact ⟨x, hx, of_decide_eq_true h⟩
  · rintro ⟨x, hx, rfl⟩
    refine hc.complete hx (decide_eq_true (.inl rfl)) (decide_eq_true rfl) fun y hy hyx hstop => ?_
    obtain hh | hle := of_decide_eq_true hstop
    · exact decide_eq_true hh
    · -- The ancestor is the target itself, so no block before it is down at the target's view.
      cases ht.symm.trans (get?_of_transGen hyx)
      exact absurd (hs.view_lt (hs.line hb hy) hyx) (Nat.not_lt_of_le hle)

/-- The genesis block is at the end of every line to a block with its hash, as it is stored from the
start. -/
theorem path_genesis (hg : c.get? Block.genesisHash = some .genesis)
    (hb : b.isGenesis = true → b = .genesis) (hx : ReflTransGen (Parent c) b x)
    (h : x.isGenesis = true) : x = .genesis := by
  obtain rfl | hx := reflTransGen_iff_eq_or_transGen.mp hx
  · exact hb h
  · have hx := get?_of_transGen hx
    rw [of_decide_eq_true h, hg] at hx
    exact (Option.some.inj hx).symm

end Searches

/-- Blocks may be put into the store in any order, and forks and missing parents do no harm. -/
theorem searches_exact (bs : List Block) (b : Block) (hs : ViewsRise (stored bs))
    (hb : Rises (stored bs) b) : ExactSearches (stored bs) b where
  rootSearch a := by
    have hc := climb_hasAncestry hs hb
    exact ⟨fun ha => ha.unique hc, fun ha => ha ▸ hc⟩
  rooted := hasAncestry_iff hs hb
  descended hh := by
    rw [hasAncestry_iff hs hb]
    constructor
    · rintro ⟨g, hg, h, -⟩
      rwa [← path_genesis (get?_genesis bs) hh hg h]
    · exact fun hg => ⟨.genesis, hg, decide_eq_true rfl, rfl⟩
  search h target ht a := by
    have hc := climb_reaches hs hb ht
    exact ⟨fun ha => ha.unique hc, fun ha => ha ▸ hc⟩
  unknown h hn := by simp [Chain.reaches, hn]
  reached h := by
    cases ht : (stored bs).get? h with
    | none => simp [Chain.reaches, ht]
    | some target => rw [reaches_iff hs hb ht]; simp

def child (b : Block) (v : Nat) : Block :=
  .ofContents ⟨b.hash, none, [], .ofNat v, .ofNat 1⟩

def trunk : Block := child (child .genesis 1) 3

def branch : Block := child (child .genesis 1) 2

def stray : Block := .ofContents ⟨.fill 9, none, [], .ofNat 2, .ofNat 1⟩

def forked : List Block := [stray, branch, trunk, child .genesis 1]

theorem searches_exact_forked :
    ViewsRise (stored forked) ∧ Rises (stored forked) (child trunk 5) ∧
      (stored forked).hasAncestry (child trunk 5) = true ∧
      (stored forked).reaches (child trunk 5) (child .genesis 1).hash = true ∧
      (stored forked).reaches (child trunk 5) branch.hash = false ∧
      (stored forked).hasAncestry stray = false ∧
        ExactSearches (stored forked) (child trunk 5) := by
  have ht : ViewsRise (stored forked) ∧ Rises (stored forked) (child trunk 5) ∧
      (stored forked).hasAncestry (child trunk 5) = true ∧
      (stored forked).reaches (child trunk 5) (child .genesis 1).hash = true ∧
      (stored forked).reaches (child trunk 5) branch.hash = false ∧
      (stored forked).hasAncestry stray = false := by decide +kernel
  obtain ⟨hs, hb, hrest⟩ := ht
  exact ⟨hs, hb, hrest.1, hrest.2.1, hrest.2.2.1, hrest.2.2.2,
    searches_exact forked (child trunk 5) hs hb⟩

end Equivocation.Proofs.Lineage
