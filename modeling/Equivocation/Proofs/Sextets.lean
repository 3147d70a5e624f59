import Equivocation.Base64
import Mathlib.Data.List.Basic

namespace Equivocation.Proofs.Sextets

open Base64

/-- Bytes in groups of six bits, the last of them filled up with zeros. -/
def sextets : List UInt8 → List Nat
  | [] => []
  | [a] => [a.toNat / 4, a.toNat % 4 * 16]
  | [a, b] => [a.toNat / 4, a.toNat % 4 * 16 + b.toNat / 16, b.toNat % 16 * 4]
  | a :: b :: c :: bs =>
    a.toNat / 4 :: (a.toNat % 4 * 16 + b.toNat / 16) :: (b.toNat % 16 * 4 + c.toNat / 64) ::
      c.toNat % 64 :: sextets bs

def padding (n : Nat) : Nat := (4 - n % 4) % 4

/-- From place `i` on, `n` pads stand only in the third and fourth places of groups. -/
def Fills (i n : Nat) : Prop := ∀ k < n, 2 ≤ (i + k) % 4

variable {bs : List UInt8} {vs ws : List Nat} {b : UInt8} {v i k n start : Nat}

section Alphabet

theorem value?_symbol (hv : v < 64) : value? (symbol v) = some v := by
  have h : ∀ v < 64, value? (symbol v) = some v := by decide
  exact h v hv

theorem value?_eq_some : value? b = some v ↔ v < 64 ∧ b = symbol v := by
  constructor
  · have h : ∀ n < 256, ∀ v ∈ value? (UInt8.ofNat n), v < 64 ∧ UInt8.ofNat n = symbol v := by
      decide +kernel
    intro hb
    have hn := h b.toNat b.toNat_lt
    rw [UInt8.ofNat_toNat] at hn
    exact hn v hb
  · rintro ⟨hv, rfl⟩
    exact value?_symbol hv

theorem symbol_ne_pad (hv : v < 64) : symbol v ≠ pad := by
  have h : ∀ v < 64, symbol v ≠ pad := by decide
  exact h v hv

theorem symbols_eq (bs : List UInt8) : symbols bs = (sextets bs).map symbol := by
  fun_induction sextets bs with
  | case1 => rfl
  | case2 a => rfl
  | case3 a b => rfl
  | case4 a b c bs ih => rw [symbols, ih]; rfl

theorem sextets_lt (bs : List UInt8) : ∀ v ∈ sextets bs, v < 64 := by
  fun_induction sextets bs with
  | case1 => simp
  | case2 a =>
    have := a.toNat_lt
    simp only [List.forall_mem_cons, List.not_mem_nil, false_implies, implies_true, and_true]
    omega
  | case3 a b =>
    have := a.toNat_lt
    have := b.toNat_lt
    simp only [List.forall_mem_cons, List.not_mem_nil, false_implies, implies_true, and_true]
    omega
  | case4 a b c bs ih =>
    have := a.toNat_lt
    have := b.toNat_lt
    have := c.toNat_lt
    simp only [List.forall_mem_cons]
    exact ⟨by omega, by omega, by omega, by omega, ih⟩

theorem encode_eq (bs : List UInt8) :
    encode bs = (sextets bs).map symbol ++ List.replicate (padding (sextets bs).length) pad := by
  unfold encode padding
  dsimp only
  rw [symbols_eq, List.length_map]

end Alphabet

section Joining

theorem join_sextets (bs : List UInt8) : join (sextets bs) = some bs := by
  fun_induction sextets bs with
  | case1 => rfl
  | case2 a =>
    have := a.toNat_lt
    have hr : a.toNat % 4 * 16 % 16 = 0 := by omega
    have ha : a.toNat / 4 * 4 + a.toNat % 4 * 16 / 16 = a.toNat := by omega
    rw [join, if_pos hr, ha, UInt8.ofNat_toNat]
  | case3 a b =>
    have := a.toNat_lt
    have := b.toNat_lt
    have hr : b.toNat % 16 * 4 % 4 = 0 := by omega
    have ha : a.toNat / 4 * 4 + (a.toNat % 4 * 16 + b.toNat / 16) / 16 = a.toNat := by omega
    have hb : (a.toNat % 4 * 16 + b.toNat / 16) % 16 * 16 + b.toNat % 16 * 4 / 4 = b.toNat := by
      omega
    rw [join, if_pos hr, ha, hb, UInt8.ofNat_toNat, UInt8.ofNat_toNat]
  | case4 a b c bs ih =>
    have := a.toNat_lt
    have := b.toNat_lt
    have := c.toNat_lt
    have ha : a.toNat / 4 * 4 + (a.toNat % 4 * 16 + b.toNat / 16) / 16 = a.toNat := by omega
    have hb : (a.toNat % 4 * 16 + b.toNat / 16) % 16 * 16 + (b.toNat % 16 * 4 + c.toNat / 64) / 4 =
        b.toNat := by
      omega
    have hc : (b.toNat % 16 * 4 + c.toNat / 64) % 4 * 64 + c.toNat % 64 = c.toNat := by omega
    rw [join, ih, ha, hb, hc, UInt8.ofNat_toNat, UInt8.ofNat_toNat, UInt8.ofNat_toNat]
    rfl

theorem eq_sextets_of_join (h : join vs = some bs) (hv : ∀ v ∈ vs, v < 64) : vs = sextets bs := by
  fun_induction join vs generalizing bs with
  | case1 =>
    cases h
    rfl
  | case2 => cases h
  | case3 a b hr =>
    cases h
    simp only [List.forall_mem_cons] at hv
    obtain ⟨ha, hb, -⟩ := hv
    rw [sextets, UInt8.toNat_ofNat']
    refine congrArg₂ _ ?_ (congrArg₂ _ ?_ rfl) <;> omega
  | case4 => cases h
  | case5 a b c hr =>
    cases h
    simp only [List.forall_mem_cons] at hv
    obtain ⟨ha, hb, hc, -⟩ := hv
    rw [sextets, UInt8.toNat_ofNat', UInt8.toNat_ofNat']
    refine congrArg₂ _ ?_ (congrArg₂ _ ?_ (congrArg₂ _ ?_ rfl)) <;> omega
  | case6 => cases h
  | case7 a b c d vs ih =>
    obtain ⟨bs', hj, rfl⟩ := Option.map_eq_some_iff.mp h
    simp only [List.forall_mem_cons] at hv
    obtain ⟨ha, hb, hc, hd, hv⟩ := hv
    rw [sextets, UInt8.toNat_ofNat', UInt8.toNat_ofNat', UInt8.toNat_ofNat', ← ih hj hv]
    refine congrArg₂ _ ?_ (congrArg₂ _ ?_ (congrArg₂ _ ?_ (congrArg₂ _ ?_ rfl))) <;> omega

end Joining

section Reading

theorem bodyValues_eq_ok :
    bodyValues i bs = .ok vs ↔ (∀ v ∈ vs, v < 64) ∧ bs = vs.map symbol := by
  induction bs generalizing i vs with
  | nil =>
    rw [bodyValues]
    constructor
    · intro h
      cases h
      exact ⟨by simp, rfl⟩
    · rintro ⟨-, h⟩
      rw [List.map_eq_nil_iff.mp h.symm]
  | cons b bs ih =>
    rw [bodyValues]
    constructor
    · intro h
      split at h
      · cases h
      · rename_i v hv
        split at h
        · cases h
        · rename_i vs' hvs
          cases h
          obtain ⟨hlt, rfl⟩ := value?_eq_some.mp hv
          obtain ⟨hlts, rfl⟩ := ih.mp hvs
          exact ⟨List.forall_mem_cons.mpr ⟨hlt, hlts⟩, rfl⟩
    · rintro ⟨hlt, h⟩
      cases vs with
      | nil => cases h
      | cons v vs =>
        obtain ⟨hlt, hlts⟩ := List.forall_mem_cons.mp hlt
        rw [List.map_cons] at h
        obtain ⟨rfl, rfl⟩ := List.cons.inj h
        rw [value?_symbol hlt, ih.mpr ⟨hlts, rfl⟩]

theorem fills_succ : Fills i (n + 1) ↔ 2 ≤ i % 4 ∧ Fills (i + 1) n := by
  constructor
  · intro h
    refine ⟨h 0 (by omega), fun k hk => ?_⟩
    have := h (k + 1) (by omega)
    rwa [Nat.add_comm k 1, ← Nat.add_assoc] at this
  · rintro ⟨hz, h⟩ k hk
    cases k with
    | zero => exact hz
    | succ k =>
      have := h k (by omega)
      rwa [Nat.add_comm k 1, ← Nat.add_assoc]

theorem fills_zero : Fills i 0 := fun _ hk => absurd hk (Nat.not_lt_zero _)

theorem eq_padding_of_fills (h : Fills i n) (hn : (i + n) % 4 = 0) : n = padding i := by
  unfold padding
  have hk := h (n - 3)
  omega

theorem fills_padding (hi : i % 4 ≠ 1) : Fills i (padding i) := by
  unfold padding
  intro k hk
  omega

theorem padsOnly_eq_ok :
    padsOnly start i bs = .ok n ↔ bs = List.replicate n pad ∧ Fills i n := by
  induction bs generalizing i n with
  | nil =>
    rw [padsOnly]
    constructor
    · intro h
      cases h
      exact ⟨rfl, fills_zero⟩
    · rintro ⟨h, -⟩
      rw [(List.replicate_eq_nil_iff _).mp h.symm]
  | cons b bs ih =>
    rw [padsOnly]
    constructor
    · intro h
      split at h
      · rename_i hb
        split at h
        · cases h
        · rename_i n' hn
          cases h
          obtain ⟨rfl, hp⟩ := ih.mp hn
          exact ⟨by rw [hb.1, List.replicate_succ], fills_succ.mpr ⟨hb.2, hp⟩⟩
      · cases h
    · rintro ⟨h, hp⟩
      cases n with
      | zero => cases h
      | succ n =>
        obtain ⟨hi, hp⟩ := fills_succ.mp hp
        rw [List.replicate_succ] at h
        obtain ⟨rfl, rfl⟩ := List.cons.inj h
        rw [if_pos ⟨rfl, hi⟩, ih.mpr ⟨rfl, hp⟩]

theorem tailValues_pad :
    tailValues start i (pad :: bs) = .ok (vs, n) ↔
      vs = [] ∧ ∃ m, n = m + 1 ∧ bs = List.replicate m pad ∧ Fills i (m + 1) := by
  rw [tailValues, if_pos rfl]
  constructor
  · intro h
    split at h
    · cases h
    · rename_i hi
      split at h
      · cases h
      · rename_i m hm
        cases h
        obtain ⟨hb, hp⟩ := padsOnly_eq_ok.mp hm
        exact ⟨rfl, m, rfl, hb, fills_succ.mpr ⟨Nat.le_of_not_lt hi, hp⟩⟩
  · rintro ⟨rfl, m, rfl, hb, hp⟩
    obtain ⟨hi, hp⟩ := fills_succ.mp hp
    rw [if_neg (Nat.not_lt_of_le hi), padsOnly_eq_ok.mpr ⟨hb, hp⟩]

theorem tailValues_cons (hb : b ≠ pad) :
    tailValues start i (b :: bs) = .ok (vs, n) ↔
      ∃ v ws, v < 64 ∧ b = symbol v ∧ vs = v :: ws ∧ tailValues start (i + 1) bs = .ok (ws, n) := by
  rw [tailValues, if_neg hb]
  constructor
  · intro h
    split at h
    · cases h
    · rename_i v hv
      split at h
      · cases h
      · rename_i ws m hws
        cases h
        obtain ⟨hlt, hb⟩ := value?_eq_some.mp hv
        exact ⟨v, ws, hlt, hb, rfl, hws⟩
  · rintro ⟨v, ws, hlt, rfl, rfl, hws⟩
    rw [value?_symbol hlt, hws]

theorem tailValues_eq_ok :
    tailValues start i bs = .ok (vs, n) ↔
      (∀ v ∈ vs, v < 64) ∧ bs = vs.map symbol ++ List.replicate n pad ∧
        Fills (i + vs.length) n := by
  induction bs generalizing i vs n with
  | nil =>
    rw [tailValues]
    constructor
    · intro h
      cases h
      exact ⟨by simp, rfl, fills_zero⟩
    · rintro ⟨-, h, -⟩
      obtain ⟨hv, hn⟩ := List.append_eq_nil_iff.mp h.symm
      rw [List.map_eq_nil_iff.mp hv, (List.replicate_eq_nil_iff _).mp hn]
  | cons b bs ih =>
    by_cases hb : b = pad
    · subst hb
      rw [tailValues_pad]
      constructor
      · rintro ⟨rfl, m, rfl, rfl, hp⟩
        exact ⟨by simp, by rw [List.replicate_succ]; rfl, hp⟩
      · rintro ⟨hlt, h, hp⟩
        cases vs with
        | nil =>
          cases n with
          | zero => cases h
          | succ m =>
            rw [List.map_nil, List.nil_append, List.replicate_succ] at h
            exact ⟨rfl, m, rfl, (List.cons.inj h).2, hp⟩
        | cons v vs =>
          rw [List.map_cons, List.cons_append] at h
          exact absurd (List.cons.inj h).1.symm (symbol_ne_pad (hlt v List.mem_cons_self))
    · rw [tailValues_cons hb]
      have hplace : ∀ ws : List Nat, i + (ws.length + 1) = i + 1 + ws.length := fun ws => by omega
      constructor
      · rintro ⟨v, ws, hlt, rfl, rfl, hws⟩
        obtain ⟨hlts, rfl, hp⟩ := ih.mp hws
        refine ⟨List.forall_mem_cons.mpr ⟨hlt, hlts⟩, rfl, ?_⟩
        rwa [List.length_cons, hplace]
      · rintro ⟨hlt, h, hp⟩
        cases vs with
        | nil =>
          cases n with
          | zero => cases h
          | succ n =>
            rw [List.map_nil, List.nil_append, List.replicate_succ] at h
            exact absurd (List.cons.inj h).1 hb
        | cons v ws =>
          obtain ⟨hlt, hlts⟩ := List.forall_mem_cons.mp hlt
          rw [List.map_cons, List.cons_append] at h
          obtain ⟨rfl, rfl⟩ := List.cons.inj h
          rw [List.length_cons, hplace] at hp
          exact ⟨v, ws, hlt, rfl, rfl, ih.mpr ⟨hlts, rfl, hp⟩⟩

end Reading

section Texts

theorem length_sextets (bs : List UInt8) : (sextets bs).length % 4 ≠ 1 := by
  fun_induction sextets bs with
  | case1 => simp
  | case2 a => simp
  | case3 a b => simp
  | case4 a b c bs ih =>
    simp only [List.length_cons]
    omega

theorem decode_eq_ok {text : List UInt8} :
    decode text = .ok bs ↔ text.length % 4 ≠ 1 ∧ ∃ body tail n,
      bodyValues 0 (text.take (tailStart text.length)) = .ok body ∧
      tailValues (tailStart text.length) 0 (text.drop (tailStart text.length)) = .ok (tail, n) ∧
      (tail.length + n) % 4 = 0 ∧ join (body ++ tail) = some bs := by
  unfold decode
  dsimp only
  constructor
  · intro h
    split at h
    · split at h <;> cases h
    · rename_i hlen
      split at h
      · cases h
      · rename_i body hbody
        split at h
        · cases h
        · rename_i tail n htail
          split at h
          · cases h
          · rename_i hn
            split at h
            · rename_i bytes hj
              cases h
              exact ⟨hlen, body, tail, n, hbody, htail, by simpa using hn, hj⟩
            · cases h
  · rintro ⟨hlen, body, tail, n, hbody, htail, hn, hj⟩
    rw [if_neg hlen, hbody]
    dsimp only
    rw [htail]
    dsimp only
    rw [if_neg (not_not.mpr hn), hj]

theorem tailStart_le (size : Nat) : tailStart size ≤ size := by
  unfold tailStart
  omega

theorem length_body {text : List UInt8} (h : text.take (tailStart text.length) = vs.map symbol) :
    vs.length % 4 = 0 := by
  have hl := congrArg List.length h
  rw [List.length_take_of_le (tailStart_le _), List.length_map] at hl
  unfold tailStart at hl
  omega

theorem padding_add {m : Nat} (h : m % 4 = 0) : padding (m + n) = padding n := by
  unfold padding
  omega

/-- Nothing but the encoding of bytes is read as them. -/
theorem eq_encode_of_decode {text : List UInt8} (h : decode text = .ok bs) : text = encode bs := by
  obtain ⟨-, body, tail, n, hbody, htail, hn, hj⟩ := decode_eq_ok.mp h
  obtain ⟨hbody, htake⟩ := bodyValues_eq_ok.mp hbody
  obtain ⟨htail, hdrop, hp⟩ := tailValues_eq_ok.mp htail
  have hs := eq_sextets_of_join hj (List.forall_mem_append.mpr ⟨hbody, htail⟩)
  have hpad : n = padding (sextets bs).length := by
    rw [← hs, List.length_append, padding_add (h := length_body htake), ← Nat.zero_add tail.length]
    exact eq_padding_of_fills hp (by rwa [Nat.zero_add])
  rw [encode_eq, ← hpad, ← hs, List.map_append, List.append_assoc, ← hdrop, ← htake,
    List.take_append_drop]

theorem decode_encode (bs : List UInt8) : decode (encode bs) = .ok bs := by
  have hone := length_sextets bs
  have hlt := sextets_lt bs
  have hj := join_sextets bs
  rw [encode_eq]
  generalize sextets bs = vs at hone hlt hj
  have hlen : (vs.map symbol ++ List.replicate (padding vs.length) pad).length =
      vs.length + padding vs.length := by
    simp
  have hfull : (vs.length + padding vs.length) % 4 = 0 := by
    unfold padding
    omega
  have hstart : tailStart (vs.length + padding vs.length) ≤ vs.length := by
    unfold tailStart padding
    omega
  have hwhole : tailStart (vs.length + padding vs.length) % 4 = 0 := by
    unfold tailStart
    omega
  refine decode_eq_ok.mpr ⟨by rw [hlen]; omega, ?_⟩
  rw [hlen]
  generalize tailStart (vs.length + padding vs.length) = start at hstart hwhole
  have hdrop : (vs.drop start).length + padding vs.length =
      vs.length - start + padding vs.length := by
    rw [List.length_drop]
  refine ⟨vs.take start, vs.drop start, padding vs.length, bodyValues_eq_ok.mpr ⟨?_, ?_⟩,
    tailValues_eq_ok.mpr ⟨?_, ?_, ?_⟩, by omega, by rw [List.take_append_drop, hj]⟩
  · exact fun v hv => hlt v (List.mem_of_mem_take hv)
  · rw [List.take_append_of_le_length (by rwa [List.length_map]), List.map_take]
  · exact fun v hv => hlt v (List.mem_of_mem_drop hv)
  · rw [List.drop_append_of_le_length (by rwa [List.length_map]), List.map_drop]
  · have hp : padding vs.length = padding (0 + (vs.drop start).length) := by
      rw [Nat.zero_add, List.length_drop]
      unfold padding
      omega
    rw [hp]
    refine fills_padding ?_
    rw [Nat.zero_add, List.length_drop]
    omega

end Texts

end Equivocation.Proofs.Sextets
