import Equivocation.Random.Draw

namespace Equivocation.Proofs.Drawing

open Draw
open Width (accepts)
open Cursor (scaled)

variable {α β : Type} {d : Draw α} {f : α → Draw β} {P : α → Prop} {Q : β → Prop}
  {E : Crash → Prop} {width : Width} {n : Nat} {c c' : Cursor}

def afterNumbers (c : Cursor) (width : Width) (k : Nat) : Cursor := c.advance (k * width.words)

/-- Wherever in the stream a number is drawn for a range that is not empty, one is accepted in the
end. That draws return rests on it: there are streams in which none ever is. -/
def Fair (c : Cursor) : Prop :=
  ∀ width n position, 0 < n →
    ∃ k, accepts width n ((afterNumbers { c with position } width k).number width) = true

/-- What a draw may give, and what it may break off with, wherever it starts in whatever stream. It
stays in its stream, and it returns if the stream is fair. -/
def Draws (d : Draw α) (P : α → Prop) (E : Crash → Prop) : Prop :=
  ∀ c : Cursor, match d.run.run c with
    | none => ¬ Fair c
    | some (.ok x, c') => P x ∧ c'.stream = c.stream
    | some (.error crash, c') => E crash ∧ c'.stream = c.stream

section Numbers

theorem number_lt (c : Cursor) (width : Width) : c.number width < width.size := by
  have hlow := (c.stream c.position).toNat_lt
  cases width with
  | single => exact hlow
  | double =>
    have hhigh := (c.stream (c.position + 1)).toNat_lt
    simp only [Cursor.number, Width.size]
    omega

theorem scale_lt {x : Nat} (hn : 0 < n) (hx : x < width.size) : x * n / width.size < n :=
  Nat.div_lt_of_lt_mul (Nat.mul_lt_mul_of_pos_right hx hn)

theorem afterNumbers_zero (c : Cursor) (width : Width) : afterNumbers c width 0 = c := by
  simp [afterNumbers, Cursor.advance]

theorem afterNumbers_succ (c : Cursor) (width : Width) (k : Nat) :
    afterNumbers c width (k + 1) = afterNumbers (c.advance width.words) width k := by
  simp only [afterNumbers, Cursor.advance, Nat.succ_mul, Nat.add_assoc, Nat.add_comm]

theorem fair_congr (h : c'.stream = c.stream) : Fair c' ↔ Fair c := by
  unfold Fair
  rw [h]

/-- From some place on there are only zeros, which are always accepted. -/
theorem fair_of_zeros {c : Cursor} (start : Nat) (h : ∀ i, start ≤ i → c.stream i = 0) :
    Fair c := by
  intro width n position _
  refine ⟨start, ?_⟩
  have hzero : (afterNumbers { c with position } width start).number width = 0 := by
    cases width with
    | single =>
      simp only [afterNumbers, Cursor.advance, Cursor.number, Width.words]
      rw [h _ (by omega)]
      rfl
    | double =>
      simp only [afterNumbers, Cursor.advance, Cursor.number, Width.words]
      rw [h _ (by omega), h _ (by omega)]
      rfl
  rw [hzero]
  simp [accepts]

end Numbers

section Scaling

/-- What is returned is a number that was accepted, scaled down, and the cursor is behind it. -/
theorem scaled_eq_some {r : Nat × Cursor} (h : scaled width n c = some r) :
    ∃ k, accepts width n ((afterNumbers c width k).number width) = true ∧
      r =
        ((afterNumbers c width k).number width * n / width.size, afterNumbers c width (k + 1)) := by
  refine Cursor.scaled.partial_correctness width n (fun c r =>
    ∃ k, accepts width n ((afterNumbers c width k).number width) = true ∧
      r = ((afterNumbers c width k).number width * n / width.size, afterNumbers c width (k + 1)))
    (fun scaled ih c r h => ?_) c r h
  dsimp only at h
  split at h
  next hx =>
    refine ⟨0, ?_, ?_⟩
    · rwa [afterNumbers_zero]
    · rw [afterNumbers_succ, afterNumbers_zero, afterNumbers_zero, ← Option.some.inj h]
  next hx =>
    obtain ⟨k, hk, hr⟩ := ih _ _ h
    refine ⟨k + 1, ?_, ?_⟩
    · rwa [afterNumbers_succ]
    · rw [afterNumbers_succ, afterNumbers_succ, hr]

theorem scaled_of_accepted {k : Nat}
    (h : accepts width n ((afterNumbers c width k).number width) = true) :
    ∃ r, scaled width n c = some r := by
  induction k generalizing c with
  | zero =>
    rw [afterNumbers_zero] at h
    rw [scaled]
    exact ⟨_, if_pos h⟩
  | succ k ih =>
    rw [afterNumbers_succ] at h
    rw [scaled]
    split
    · exact ⟨_, rfl⟩
    · exact ih h

theorem scaled_eq_none : scaled width n c = none ↔
    ∀ k, accepts width n ((afterNumbers c width k).number width) = false := by
  constructor
  · intro h k
    refine Bool.eq_false_iff.mpr fun hk => ?_
    obtain ⟨r, hr⟩ := scaled_of_accepted hk
    cases h.symm.trans hr
  · intro h
    cases hs : scaled width n c with
    | none => rfl
    | some r =>
      obtain ⟨k, hk, -⟩ := scaled_eq_some hs
      cases (h k).symm.trans hk

end Scaling

section Draws

theorem draws_pure {x : α} (h : P x) : Draws (pure x) P E := fun _ => ⟨h, rfl⟩

theorem draws_throw {crash : Crash} (h : E crash) : Draws (throw crash : Draw α) P E :=
  fun _ => ⟨h, rfl⟩

theorem run_bind (d : Draw α) (f : α → Draw β) (c : Cursor) :
    (d >>= f).run.run c = match d.run.run c with
      | none => none
      | some (.ok x, c') => (f x).run.run c'
      | some (.error crash, c') => some (.error crash, c') := by
  change ((d.run.run c).bind fun r => (ExceptT.bindCont f r.1).run r.2) = _
  rcases d.run.run c with _ | ⟨x | crash, c'⟩ <;> rfl

theorem Draws.bind (h : Draws d P E) (hf : ∀ x, P x → Draws (f x) Q E) : Draws (d >>= f) Q E := by
  intro c
  have hc := h c
  rw [run_bind]
  revert hc
  rcases d.run.run c with _ | ⟨crash | x, c'⟩
  · exact id
  · exact id
  · rintro ⟨hx, hstream⟩
    have hfx := hf x hx c'
    rw [fair_congr hstream, hstream] at hfx
    exact hfx

theorem Draws.imp {P' : α → Prop} (h : Draws d P E) (hp : ∀ x, P x → P' x) : Draws d P' E := by
  intro c
  have hc := h c
  revert hc
  rcases d.run.run c with _ | ⟨crash | x, c'⟩
  · exact id
  · exact id
  · exact And.imp_left (hp x)

theorem Draws.gives {x : α} (h : Draws d P E) (hr : d.run.run c = some (.ok x, c')) : P x := by
  have hc := h c
  rw [hr] at hc
  exact hc.1

theorem Draws.breaks {crash : Crash} (h : Draws d P E)
    (hr : d.run.run c = some (.error crash, c')) : E crash := by
  have hc := h c
  rw [hr] at hc
  exact hc.1

theorem Draws.stays {r : Except Crash α} (h : Draws d P E)
    (hr : d.run.run c = some (r, c')) : c'.stream = c.stream := by
  have hc := h c
  rw [hr] at hc
  cases r with
  | ok x => exact hc.2
  | error crash => exact hc.2

theorem Draws.returns (h : Draws d P E) (hc : Fair c) : ∃ r, d.run.run c = some r := by
  cases hd : d.run.run c with
  | none =>
    have hn := h c
    rw [hd] at hn
    exact absurd hc hn
  | some r => exact ⟨r, rfl⟩

theorem Draws.ok_of_some {r : Except Crash α × Cursor} (h : Draws d P fun _ => False)
    (hr : d.run.run c = some r) : ∃ x, r.1 = .ok x ∧ P x := by
  obtain ⟨x | crash, c'⟩ := r
  · exact (h.breaks hr).elim
  · exact ⟨_, rfl, h.gives hr⟩

theorem draws_number (width : Width) : Draws (number width) (· < width.size) E :=
  fun c => ⟨number_lt c width, rfl⟩

theorem below_run (hn : 0 < n) (c : Cursor) :
    (below width n).run.run c = (scaled width n c).map fun r => (.ok r.1, r.2) := by
  unfold below
  rw [if_neg (Nat.ne_of_gt hn)]
  change ((scaled width n c).bind fun r => some (Except.ok r.1, r.2)) = _
  cases scaled width n c <;> rfl

theorem draws_below (hn : 0 < n) : Draws (below width n) (· < n) E := by
  intro c
  rw [below_run hn]
  cases hs : scaled width n c with
  | none =>
    intro hfair
    obtain ⟨k, hk⟩ := hfair width n c.position hn
    exact Bool.false_ne_true ((scaled_eq_none.mp hs k).symm.trans hk)
  | some r =>
    obtain ⟨k, -, rfl⟩ := scaled_eq_some hs
    exact ⟨scale_lt hn (number_lt _ width), rfl⟩

theorem draws_bytes (n : Nat) : Draws (bytes n) (fun _ => True) E := fun _ => ⟨trivial, rfl⟩

theorem draws_chance (threshold : Nat) : Draws (chance threshold) (fun _ => True) E :=
  (draws_number .double).bind fun _ _ => draws_pure trivial

theorem draws_many (h : Draws d P E) (n : Nat) :
    Draws (many d n) (fun xs => xs.length = n ∧ ∀ x ∈ xs, P x) E := by
  induction n with
  | zero => exact draws_pure ⟨rfl, nofun⟩
  | succ n ih =>
    refine h.bind fun x hx => ih.bind fun xs hxs => draws_pure ⟨?_, ?_⟩
    · exact congrArg (· + 1) hxs.1
    · exact List.forall_mem_cons.mpr ⟨hx, hxs.2⟩

end Draws

end Equivocation.Proofs.Drawing
