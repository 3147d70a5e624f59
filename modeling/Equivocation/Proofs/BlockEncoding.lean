import Equivocation.Block
import Equivocation.Proofs.SignatureOrder
import Equivocation.Replica.Views

namespace Equivocation.Proofs.BlockEncoding

theorem littleEndian_inj {width m n : Nat} (hm : m < Bytes.capacity width)
    (hn : n < Bytes.capacity width) (h : Bytes.littleEndian width m = Bytes.littleEndian width n) :
    m = n := by
  have hd := congrArg Bytes.ofLittleEndian h
  rwa [Bytes.ofLittleEndian_littleEndian width m hm, Bytes.ofLittleEndian_littleEndian width n hn]
    at hd

theorem replica_encode_inj {r s : ReplicaId} (h : r.encode = s.encode) : r = s :=
  ReplicaId.ext (@littleEndian_inj 4 _ _ r.isLt s.isLt h)

theorem view_encode_inj {v w : View} (h : v.encode = w.encode) : v = w :=
  View.ext (@littleEndian_inj 8 _ _ v.isLt w.isLt h)

@[simp] theorem length_replica_encode (r : ReplicaId) : r.encode.length = 4 := by
  simp [ReplicaId.encode]

@[simp] theorem length_view_encode (v : View) : v.encode.length = 8 := by
  simp [View.encode]

@[simp] theorem length_signature_encode (s : Signature) : s.encode.length = 68 := by
  simp [Signature.encode, s.bytes.length_eq]

theorem signature_encode_inj {s t : Signature} (h : s.encode = t.encode) : s = t := by
  obtain ⟨hr, hb⟩ := List.append_inj h (by simp)
  exact Signature.ext (replica_encode_inj hr) (SignatureBytes.ext hb)

/-- Signatures have a fixed width, so a row of them can be cut in one way only. -/
theorem signatures_encode_inj {ss ts : List Signature}
    (h : ss.flatMap Signature.encode = ts.flatMap Signature.encode) : ss = ts := by
  induction ss generalizing ts with
  | nil =>
    cases ts with
    | nil => rfl
    | cons t ts =>
      have hl := congrArg List.length h
      simp at hl
      omega
  | cons s ss ih =>
    cases ts with
    | nil =>
      have hl := congrArg List.length h
      simp at hl
    | cons t ts =>
      simp only [List.flatMap_cons] at h
      obtain ⟨hs, hss⟩ := List.append_inj h (by simp)
      rw [signature_encode_inj hs, ih hss]

def QcAgrees (p q : QuorumCertificate) : Prop :=
  p.block = q.block ∧ p.view = q.view ∧ p.signatures.Perm q.signatures

theorem qc_encode_eq_iff {p q : QuorumCertificate} : p.encode = q.encode ↔ QcAgrees p q := by
  constructor
  · intro h
    obtain ⟨hh, hs⟩ := List.append_inj h (by simp [p.block.length_eq, q.block.length_eq])
    obtain ⟨hb, hv⟩ := List.append_inj hh (by simp [p.block.length_eq, q.block.length_eq])
    exact ⟨Hash.ext hb, view_encode_inj hv,
      SignatureOrder.sort_eq_sort_iff.mp (signatures_encode_inj hs)⟩
  · rintro ⟨hb, hv, hs⟩
    simp only [QuorumCertificate.encode, hb, hv, SignatureOrder.sort_eq_sort_iff.mpr hs]

def certificateBytes (j : Option QuorumCertificate) : List UInt8 :=
  (j.map QuorumCertificate.encode).getD []

def JustifyAgrees : Option QuorumCertificate → Option QuorumCertificate → Prop
  | none, none => True
  | some p, some q => QcAgrees p q
  | _, _ => False

theorem certificateBytes_eq_iff {i j : Option QuorumCertificate} :
    certificateBytes i = certificateBytes j ↔ JustifyAgrees i j := by
  have hne : ∀ q : QuorumCertificate, q.encode ≠ [] := by
    intro q h
    have hl := congrArg List.length h
    simp [QuorumCertificate.encode, q.block.length_eq] at hl
  cases i with
  | none =>
    cases j with
    | none => simp [certificateBytes, JustifyAgrees]
    | some q => simpa [certificateBytes, JustifyAgrees] using (hne q).symm
  | some p =>
    cases j with
    | none => simpa [certificateBytes, JustifyAgrees] using hne p
    | some q => simpa [certificateBytes, JustifyAgrees] using qc_encode_eq_iff

def Agrees (a b : Block.Contents) : Prop :=
  a.parent = b.parent ∧ a.proposer = b.proposer ∧ a.view = b.view ∧ a.command = b.command ∧
    JustifyAgrees a.justify b.justify

/-- The header has a fixed width; where the command ends and the certificate begins leaves no trace
in the encoding. -/
theorem encode_eq_iff {a b : Block.Contents} :
    a.encode = b.encode ↔ a.parent = b.parent ∧ a.proposer = b.proposer ∧ a.view = b.view ∧
      a.command ++ certificateBytes a.justify = b.command ++ certificateBytes b.justify := by
  have hsplit : ∀ c : Block.Contents, c.encode =
      c.parent.bytes ++ (c.proposer.encode ++ (c.view.encode ++
        (c.command ++ certificateBytes c.justify))) := by
    intro c
    simp [Block.Contents.encode, certificateBytes]
  constructor
  · intro h
    rw [hsplit a, hsplit b] at h
    obtain ⟨hp, h⟩ := List.append_inj h (by rw [a.parent.length_eq, b.parent.length_eq])
    obtain ⟨hr, h⟩ := List.append_inj h (by simp)
    obtain ⟨hv, h⟩ := List.append_inj h (by simp)
    exact ⟨Hash.ext hp, replica_encode_inj hr, view_encode_inj hv, h⟩
  · rintro ⟨hp, hr, hv, h⟩
    rw [hsplit a, hsplit b, hp, hr, hv, h]

theorem utf8_append (s t : String) : Bytes.utf8 (s ++ t) = Bytes.utf8 s ++ Bytes.utf8 t := by
  simp [Bytes.utf8]

theorem utf8_ofList (cs : List Char) :
    Bytes.utf8 (String.ofList cs) = cs.flatMap String.utf8EncodeChar := by
  simp [Bytes.utf8, List.utf8Encode]

theorem not_mem_utf8EncodeChar {c : Char} (h : c.isDigit) :
    (32 : UInt8) ∉ String.utf8EncodeChar c := by
  simp only [Char.isDigit, Bool.and_eq_true, decide_eq_true_eq] at h
  have hlow := UInt32.le_iff_toNat_le.mp h.1
  have hhigh := UInt32.le_iff_toNat_le.mp h.2
  have hs : c.utf8Size = 1 := by
    rw [Char.utf8Size_eq_one_iff]
    exact UInt32.le_trans h.2 (by decide)
  rw [String.utf8EncodeChar_eq_singleton hs, List.mem_singleton]
  intro he
  have hn := congrArg UInt8.toNat he
  have hzero : '0'.val.toNat = 48 := rfl
  have hnine : '9'.val.toNat = 57 := rfl
  have hspace : (32 : UInt8).toNat = 32 := rfl
  rw [UInt32.toNat_toUInt8] at hn
  omega

theorem not_mem_utf8_toString (n : Nat) : (32 : UInt8) ∉ Bytes.utf8 (toString n) := by
  change (32 : UInt8) ∉ Bytes.utf8 n.repr
  rw [Nat.repr_eq_ofList_toDigits, utf8_ofList, List.mem_flatMap]
  rintro ⟨c, hc, h⟩
  exact not_mem_utf8EncodeChar (Nat.isDigit_of_mem_toDigits (by decide) (by decide) hc) h

theorem append_cons_inj {α : Type} {x : α} {as bs ss ts : List α} (ha : x ∉ as) (hb : x ∉ bs)
    (h : as ++ x :: ss = bs ++ x :: ts) : as = bs ∧ ss = ts := by
  induction as generalizing bs with
  | nil =>
    cases bs with
    | nil => simpa using h
    | cons b bs =>
      simp only [List.cons_append, List.nil_append, List.cons.injEq] at h
      exact absurd (List.mem_cons.mpr (Or.inl h.1)) hb
  | cons a as ih =>
    cases bs with
    | nil =>
      simp only [List.cons_append, List.nil_append, List.cons.injEq] at h
      exact absurd (List.mem_cons.mpr (Or.inl h.1.symm)) ha
    | cons b bs =>
      simp only [List.cons_append, List.cons.injEq] at h
      obtain ⟨has, hss⟩ := ih (fun hm => ha (List.mem_cons_of_mem a hm))
        (fun hm => hb (List.mem_cons_of_mem b hm)) h.2
      exact ⟨by rw [h.1, has], hss⟩

/-- Commands of proposals name the node between two blanks, so for one view no command of a proposal
is the beginning of another. -/
theorem nextBlock_command_inj {seat seat' : Seat} {r r' : Replica} {xs ys : List UInt8}
    (hv : r.view = r'.view)
    (h : (Replica.nextBlock seat r).command ++ xs = (Replica.nextBlock seat' r').command ++ ys) :
    (Replica.nextBlock seat r).command = (Replica.nextBlock seat' r').command ∧ xs = ys := by
  have hcommand : ∀ (seat : Seat) (r : Replica), (Replica.nextBlock seat r).command =
      Bytes.utf8 "node " ++ (Bytes.utf8 (toString seat.node.toNat) ++
        32 :: (Bytes.utf8 "view " ++ Bytes.utf8 (toString r.view.toNat))) := by
    intro seat r
    have hblank : Bytes.utf8 " view " = 32 :: Bytes.utf8 "view " := by decide
    change Bytes.utf8 ("node " ++ toString seat.node.toNat ++ " view " ++ toString r.view.toNat) = _
    simp only [utf8_append, hblank, List.append_assoc, List.cons_append]
  rw [hcommand, hcommand] at h
  simp only [List.append_assoc, List.cons_append, List.append_cancel_left_eq] at h
  obtain ⟨hnode, hrest⟩ :=
    append_cons_inj (not_mem_utf8_toString _) (not_mem_utf8_toString _) h
  rw [hv] at hrest
  refine ⟨?_, List.append_cancel_left (List.append_cancel_left hrest)⟩
  rw [hcommand, hcommand, hnode, hv]

def Built (b : Block) : Prop := ∃ seat r, b = Replica.nextBlock seat r

/-- The two commands end at the same place: they are of one length, or follow the form of
proposals. -/
def Aligned (a b : Block) : Prop := a.command.length = b.command.length ∨ Built a ∧ Built b

theorem command_eq_of_aligned {a b : Block} (h : Aligned a b) (hv : a.view = b.view)
    {xs ys : List UInt8} (hc : a.command ++ xs = b.command ++ ys) :
    a.command = b.command ∧ xs = ys := by
  rcases h with hl | ⟨⟨seat, r, rfl⟩, ⟨seat', r', rfl⟩⟩
  · exact List.append_inj hc hl
  · exact nextBlock_command_inj hv hc

/-- Equal encodings mean equal headers and equal bytes after them. When the commands end at the same
place, that leaves no choice: the blocks agree in every field, and blocks that do not agree share a
hash only if the digest collides. -/
theorem encode_determines_fields (a b : Block) :
    (a.encode = b.encode ↔ a.parent = b.parent ∧ a.proposer = b.proposer ∧ a.view = b.view ∧
      a.command ++ certificateBytes a.justify = b.command ++ certificateBytes b.justify) ∧
    (Aligned a b → (a.encode = b.encode ↔ Agrees a.toContents b.toContents) ∧
      (a.same b = true → ¬ Agrees a.toContents b.toContents →
        a.encode ≠ b.encode ∧ Hash.digest a.encode = Hash.digest b.encode)) := by
  refine ⟨encode_eq_iff, fun hal => ?_⟩
  have hiff : a.encode = b.encode ↔ Agrees a.toContents b.toContents := by
    constructor
    · intro h
      obtain ⟨hp, hr, hv, hc⟩ := encode_eq_iff.mp h
      obtain ⟨hcommand, hj⟩ := command_eq_of_aligned hal hv hc
      exact ⟨hp, hr, hv, hcommand, certificateBytes_eq_iff.mp hj⟩
    · rintro ⟨hp, hr, hv, hcommand, hj⟩
      refine encode_eq_iff.mpr ⟨hp, hr, hv, ?_⟩
      rw [hcommand, certificateBytes_eq_iff.mpr hj]
  refine ⟨hiff, fun hs hne => ⟨fun he => hne (hiff.mp he), ?_⟩⟩
  have hh : a.hash = b.hash := of_decide_eq_true hs
  rw [a.hash_eq, b.hash_eq] at hh
  exact hh

def carrying (ss : List Signature) : Block :=
  .ofContents ⟨Block.genesisHash, some ⟨.ofNat 1, Block.genesisHash, ss⟩, [], .ofNat 2, .ofNat 1⟩

def firstVote : Signature := ⟨.ofNat 1, .fill 7⟩

def secondVote : Signature := ⟨.ofNat 2, .fill 7⟩

theorem encode_determines_fields_swapped :
    Aligned (carrying [firstVote, secondVote]) (carrying [secondVote, firstVote]) ∧
      (carrying [firstVote, secondVote]).encode = (carrying [secondVote, firstVote]).encode ∧
      (carrying [firstVote, secondVote]).justify ≠ (carrying [secondVote, firstVote]).justify := by
  have hal : Aligned (carrying [firstVote, secondVote]) (carrying [secondVote, firstVote]) :=
    .inl rfl
  obtain ⟨hiff, -⟩ := (encode_determines_fields _ _).2 hal
  exact ⟨hal, hiff.mpr ⟨rfl, rfl, rfl, rfl, rfl, rfl, .swap _ _ _⟩, by decide +kernel⟩

def certified : Block :=
  .ofContents ⟨Block.genesisHash, some .genesis, [], ⟨1, by decide⟩, .ofNat 1⟩

def spelledOut : Block :=
  .ofContents ⟨Block.genesisHash, none, QuorumCertificate.genesis.encode, ⟨1, by decide⟩, .ofNat 1⟩

/-- A command and a certificate can trade bytes, and then two different blocks compare equal. -/
theorem certified_same_spelledOut :
    certified.encode = spelledOut.encode ∧ certified.same spelledOut = true ∧
      certified.command ≠ spelledOut.command ∧ certified.justify ≠ spelledOut.justify := by
  have he : certified.encode = spelledOut.encode := by
    refine encode_eq_iff.mpr ⟨rfl, rfl, rfl, ?_⟩
    change [] ++ QuorumCertificate.genesis.encode = QuorumCertificate.genesis.encode ++ []
    rw [List.append_nil, List.nil_append]
  refine ⟨he, ?_, ?_, ?_⟩
  · have hh : certified.hash = spelledOut.hash := by
      rw [certified.hash_eq, spelledOut.hash_eq]
      exact congrArg Hash.digest he
    exact decide_eq_true hh
  · intro h
    have hl := congrArg List.length h
    simp [certified, spelledOut, Block.ofContents, QuorumCertificate.encode, Hash.length_eq] at hl
    omega
  · intro h
    cases h

end Equivocation.Proofs.BlockEncoding
