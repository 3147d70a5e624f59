import Equivocation.Rules
import Equivocation.Proofs.Ancestry

namespace Equivocation.Proofs.Backbone

open Ancestry

structure Follows (b p : Block) : Prop where
  view : b.view.toNat = p.view.toNat + 1
  parent : b.parent = p.hash
  certified : ∃ q, b.justify = some q ∧ q.block = p.hash ∧ q.view = p.view

/-- One block of each view up to some view, the newest first and the genesis block last. -/
inductive Line : List Block → Prop
  | root : Line [.genesis]
  | grow {b p : Block} {ps : List Block} : Line (p :: ps) → Follows b p → Line (b :: p :: ps)

def NoCollision (bs : List Block) : Prop := ∀ a ∈ bs, ∀ b ∈ bs, a.hash = b.hash → a = b

def Stores (c : Chain) (bs : List Block) : Prop := ∀ b ∈ bs, c.get? b.hash = some b

def back (k : Nat) (bs : List Block) : Block := (bs.drop k).headD .genesis

variable {b p l : Block} {bs ps : List Block} {c : Chain} {s : Safety} {rules : Rules} {k : Nat}

theorem Line.genesis_mem (h : Line bs) : .genesis ∈ bs := by
  induction h with
  | root => exact List.mem_singleton.mpr rfl
  | grow _ _ ih => exact List.mem_cons_of_mem _ ih

theorem Line.height (h : Line (b :: bs)) : b.view.toNat = bs.length := by
  induction bs generalizing b with
  | nil =>
    cases h
    rfl
  | cons p ps ih =>
    cases h with
    | grow h hf => rw [hf.view, ih h, List.length_cons]

theorem Line.older (h : Line (b :: bs)) (hl : l ∈ bs) : l.view < b.view := by
  induction bs generalizing b with
  | nil => cases hl
  | cons p ps ih =>
    cases h with
    | grow h hf =>
      have hp : p.view < b.view := by
        rw [View.lt_def, hf.view]
        exact Nat.lt_succ_self _
      obtain rfl | hl := List.mem_cons.mp hl
      · exact hp
      · exact Nat.lt_trans (ih h hl) hp

theorem Line.back_mem (h : Line bs) (k : Nat) : back k bs ∈ bs := by
  unfold back
  cases hd : bs.drop k with
  | nil => exact h.genesis_mem
  | cons x xs => exact List.mem_of_mem_drop (hd ▸ List.mem_cons_self)

theorem Line.drop (h : Line bs) {x : Block} {xs : List Block} (hd : bs.drop k = x :: xs) :
    Line (x :: xs) := by
  induction h generalizing k with
  | root =>
    cases k with
    | zero => exact hd ▸ .root
    | succ k => cases k <;> cases hd
  | grow hp hf ih =>
    cases k with
    | zero => exact hd ▸ .grow hp hf
    | succ k => exact ih hd

theorem NoCollision.tail (h : NoCollision (b :: bs)) : NoCollision bs :=
  fun x hx y hy => h x (List.mem_cons_of_mem _ hx) y (List.mem_cons_of_mem _ hy)

theorem NoCollision.stores (h : NoCollision bs) : Stores ⟨bs⟩ bs := by
  intro b hb
  cases hf : (⟨bs⟩ : Chain).get? b.hash with
  | none =>
    have hn := List.find?_eq_none.mp hf b hb
    simp at hn
  | some x => rw [h x (mem_of_get? hf) b hb (hash_of_get? hf)]

theorem Stores.insert (h : Stores c bs) (b : Block) : Stores (c.insert b) bs :=
  fun x hx => get?_insert (h x hx)

theorem Stores.tail (h : Stores c (b :: bs)) : Stores c bs :=
  fun x hx => h x (List.mem_cons_of_mem _ hx)

theorem Stores.lockedView (h : Stores c bs) (hl : l ∈ bs) (hs : s.locked = l.hash) :
    s.lockedView c = l.view := by
  unfold Safety.lockedView
  rw [hs, h l hl]
  rfl

/-- With no two hashes alike, a new block goes on top, and none is stored twice. -/
theorem insert_of_noCollision (hl : Line (b :: bs)) (ha : NoCollision (b :: bs)) :
    (⟨bs⟩ : Chain).insert b = ⟨b :: bs⟩ := by
  unfold Chain.insert
  rw [if_neg]
  intro hc
  obtain ⟨x, hx⟩ := Option.isSome_iff_exists.mp hc
  have hm := mem_of_get? hx
  obtain rfl := ha x (List.mem_cons_of_mem _ hm) b List.mem_cons_self (hash_of_get? hx)
  exact Nat.lt_irrefl _ (hl.older hm)

theorem insert_insert (c : Chain) (b : Block) : (c.insert b).insert b = c.insert b := by
  have hc : (c.insert b).contains b.hash = true := by
    unfold Chain.insert
    split
    · assumption
    · simp [Chain.contains, Chain.get?]
  unfold Chain.insert at hc ⊢
  rw [if_pos hc]

theorem justified?_line (hl : Line (b :: p :: ps)) (hs : Stores c (p :: ps)) :
    c.justified? b = some p := by
  cases hl with
  | grow _ hf =>
    obtain ⟨q, hj, hq, -⟩ := hf.certified
    unfold Chain.justified?
    rw [hj, Option.bind_some, hq]
    exact hs p List.mem_cons_self

theorem follow_line {fuel : Nat} (hl : Line (b :: bs)) (hs : Stores c bs)
    (hf : bs.length ≤ fuel) : b :: bs <+: c.follow fuel b := by
  induction bs generalizing b fuel with
  | nil => cases fuel <;> exact List.cons_prefix_cons.mpr ⟨rfl, List.nil_prefix⟩
  | cons p ps ih =>
    cases hl with
    | grow hl hb =>
      cases fuel with
      | zero => cases hf
      | succ fuel =>
        rw [Chain.follow, hb.parent, hs p List.mem_cons_self]
        exact List.cons_prefix_cons.mpr ⟨rfl, ih hl hs.tail (Nat.le_of_succ_le_succ hf)⟩

section Stored

variable (hl : Line (b :: bs)) (hs : Stores c bs) (hc : bs.length ≤ c.size)
include hl hs hc

theorem lineage_line : b :: bs <+: c.lineage b := follow_line hl hs hc

theorem find?_lineage {stop : Block → Bool} (hf : (b :: bs).find? stop = some l) :
    (c.lineage b).find? stop = some l := by
  obtain ⟨more, he⟩ := lineage_line hl hs hc
  rw [← he, List.find?_append, hf]
  rfl

theorem hasAncestry_line : c.hasAncestry b = true := by
  have hroot : ∀ {xs}, Line xs → xs.find? (fun x => x.view = View.zero) = some .genesis := by
    intro xs hx
    induction hx with
    | root => rfl
    | @grow b p ps _ hf ih =>
      have hne : b.view ≠ .zero := by
        intro hz
        have hv := hf.view
        rw [hz, View.toNat_zero] at hv
        omega
      rw [List.find?_cons_of_neg (by simpa using hne), ih]
  unfold Chain.hasAncestry
  rw [find?_lineage hl hs hc (hroot hl)]
  exact decide_eq_true rfl

theorem reaches_line (ha : NoCollision (b :: bs)) (hb : c.get? b.hash = some b) (hm : l ∈ b :: bs) :
    c.reaches b l.hash = true := by
  have hfind : ∀ {xs}, Line xs → NoCollision xs → l ∈ xs →
      xs.find? (fun x => x.hash = l.hash ∨ x.view ≤ l.view) = some l := by
    intro xs hx ha hm
    induction hx with
    | root =>
      obtain rfl := List.mem_singleton.mp hm
      exact List.find?_cons_of_pos (by simp)
    | @grow b p ps hx hf ih =>
      obtain rfl | hm' := List.mem_cons.mp hm
      · exact List.find?_cons_of_pos (by simp)
      · have hv := (Line.grow hx hf).older hm'
        have hne : b.hash ≠ l.hash := by
          intro he
          obtain rfl := ha b List.mem_cons_self l hm he
          exact Nat.lt_irrefl _ hv
        have hnl : ¬ b.view ≤ l.view := Nat.not_le_of_lt hv
        rw [List.find?_cons_of_neg (by simp [hne, hnl]), ih ha.tail hm']
  have hl' : c.get? l.hash = some l := by
    obtain rfl | hm := List.mem_cons.mp hm
    · exact hb
    · exact hs l hm
  unfold Chain.reaches
  rw [hl']
  dsimp only
  rw [find?_lineage hl hs hc (hfind hl ha hm)]
  exact decide_eq_true rfl

theorem mayVote_line (ha : NoCollision (b :: bs)) (hb : c.get? b.hash = some b) (hne : bs ≠ [])
    (hlock : s.locked = (back 2 (b :: bs)).hash) : rules.mayVote c s b b.view = true := by
  cases rules with
  | chained =>
    unfold Rules.mayVote
    dsimp only
    rw [hlock, reaches_line hl hs hc ha hb (hl.back_mem 2), Bool.true_or]
  | simple =>
    cases bs with
    | nil => exact absurd rfl hne
    | cons p ps =>
      have hp : Line (p :: ps) := by
        cases hl with
        | grow h _ => exact h
      have hm : back 2 (b :: p :: ps) ∈ p :: ps := by
        have h := hp.back_mem 1
        exact h
      have hle : s.lockedView c ≤ p.view := by
        rw [hs.lockedView hm hlock]
        obtain he | hm := List.mem_cons.mp hm
        · rw [he]
          exact Nat.le_refl _
        · exact Nat.le_of_lt (hp.older hm)
      unfold Rules.mayVote
      rw [justified?_line hl hs]
      exact Bool.and_eq_true_iff.mpr
        ⟨decide_eq_true (Nat.le_refl b.view.toNat), decide_eq_true hle⟩

end Stored

theorem completes_line {one two three : Block} (h₁ : Follows one two) (h₂ : Follows two three) :
    rules.completes one two three = true := by
  have hnext : ∀ {x y : Block}, Follows x y → y.view.next = x.view := by
    intro x y h
    have hx := x.view.isLt
    refine View.ext ?_
    rw [View.toNat_next, h.view] at *
    omega
  unfold Rules.completes
  cases rules with
  | chained => simp [h₁.parent, h₂.parent]
  | simple => simp [h₁.parent, h₂.parent, hnext h₁, hnext h₂]

/-- When a block joins the line, the lock moves up by one block, and the block that is three links
back, if there is one, is to be committed. -/
theorem consequence_line (hl : Line (b :: bs)) (hs : Stores c bs)
    (hlock : s.locked = (back 2 bs).hash) :
    (rules.consequence c s b).relock s = { s with locked := (back 2 (b :: bs)).hash } ∧
      (rules.consequence c s b).commit = ((b :: bs).drop 3).head?.map (·.hash) := by
  obtain ⟨lock, vote⟩ := s
  dsimp only at hlock
  subst hlock
  unfold Rules.consequence
  match bs, hl with
  | [], .root => exact ⟨rfl, rfl⟩
  | [p], hb =>
    rw [justified?_line hb hs]
    cases hb with
    | grow hp _ =>
      cases hp
      exact ⟨rfl, rfl⟩
  | p :: two :: qs, hb =>
    rw [justified?_line hb hs]
    cases hb with
    | grow hp _ =>
      dsimp only
      rw [justified?_line hp hs.tail]
      cases hp with
      | grow htwo hf =>
        cases htwo with
        | root =>
          have hv : Safety.lockedView ⟨(back 2 [p, Block.genesis]).hash, vote⟩ c = .zero :=
            Stores.lockedView hs (l := .genesis) (by simp) rfl
          rw [hv]
          exact ⟨rfl, rfl⟩
        | @grow _ three rs hthree hf' =>
          have hv : Safety.lockedView ⟨(back 2 (p :: two :: three :: rs)).hash, vote⟩ c =
              three.view := Stores.lockedView hs (l := three) (by simp) rfl
          have hlt : three.view < two.view := by
            rw [View.lt_def, hf'.view]
            exact Nat.lt_succ_self _
          dsimp only
          rw [hv, if_pos hlt, justified?_line (.grow hthree hf') hs.tail.tail]
          dsimp only
          rw [if_pos (completes_line hf hf')]
          exact ⟨rfl, rfl⟩

end Equivocation.Proofs.Backbone
