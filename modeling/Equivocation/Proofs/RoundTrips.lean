import Equivocation.Corpus
import Equivocation.Proofs.BlockEncoding
import Equivocation.Proofs.Codecs
import Equivocation.Proofs.Sextets

namespace Equivocation.Proofs.RoundTrips

open Codecs

def Short {α : Type} (xs : List α) : Prop := xs.length < 0x100000000

def ShortSync (s : SyncInfo) : Prop :=
  (∀ q ∈ s.qc, Short q.signatures) ∧ ∀ tc ∈ s.tc, Short tc.signatures

def ShortBlock (b : Block) : Prop := Short b.command ∧ ∀ q ∈ b.justify, Short q.signatures

def ShortMessage : Message → Prop
  | .propose p => ShortBlock p.block
  | .vote _ => True
  | .timeout t => Short t.highQc.signatures
  | .newView n => ShortSync n.sync

def ShortSchedule (v : ViewSchedule) : Prop := Short v.groups ∧ ∀ g ∈ v.groups, Short g.nodes

def ShortScenario (s : Scenario) : Prop := Short s.views ∧ ∀ v ∈ s.views, ShortSchedule v

section Lengths

theorem fits_qc (q : QuorumCertificate) :
    QuorumCertificate.codec.Fits q ↔ Short q.signatures :=
  ⟨fun h => h.2.2.1, fun h => ⟨trivial, trivial, h, fun _ _ => ⟨trivial, trivial⟩⟩⟩

theorem fits_tc (tc : TimeoutCertificate) :
    TimeoutCertificate.codec.Fits tc ↔ Short tc.signatures :=
  ⟨fun h => h.2.1, fun h => ⟨trivial, h, fun _ _ => ⟨trivial, trivial⟩⟩⟩

theorem fits_option {α : Type} {c : Wire.Codec α} {P : α → Prop} (h : ∀ x, c.Fits x ↔ P x)
    (x? : Option α) : (Wire.Codec.option c).Fits x? ↔ ∀ x ∈ x?, P x := by
  cases x? with
  | none => exact iff_of_true trivial nofun
  | some x => exact (h x).trans (by simp)

theorem fits_sync (s : SyncInfo) : SyncInfo.codec.Fits s ↔ ShortSync s :=
  and_congr (fits_option fits_qc s.qc) (fits_option fits_tc s.tc)

theorem fits_block (b : Block) : Block.codec.Fits b ↔ ShortBlock b := by
  have hj := fits_option fits_qc b.justify
  exact ⟨fun h => ⟨h.2.2.1, hj.mp h.2.2.2.1⟩,
    fun h => ⟨trivial, trivial, h.1, hj.mpr h.2, trivial⟩⟩

theorem fits_message (m : Message) : Message.codec.Fits m ↔ ShortMessage m := by
  cases m with
  | propose p => exact fits_block p.block
  | vote v => exact iff_of_true ⟨trivial, trivial, trivial, trivial⟩ trivial
  | timeout t =>
    exact ⟨fun h => (fits_qc t.highQc).mp h.2.2,
      fun h => ⟨trivial, ⟨trivial, trivial⟩, (fits_qc t.highQc).mpr h⟩⟩
  | newView n =>
    exact ⟨fun h => (fits_sync n.sync).mp h.2, fun h => ⟨trivial, (fits_sync n.sync).mpr h⟩⟩

theorem fits_nodeSet (s : NodeSet) : NodeSet.codec.Fits s ↔ Short s.nodes :=
  and_iff_left fun _ _ => trivial

theorem fits_schedule (v : ViewSchedule) : ViewSchedule.codec.Fits v ↔ ShortSchedule v := by
  have hg : ∀ gs : List NodeSet,
      (∀ g ∈ gs, NodeSet.codec.Fits g) ↔ ∀ g ∈ gs, Short g.nodes :=
    fun gs => forall₂_congr fun g _ => fits_nodeSet g
  exact ⟨fun h => ⟨h.2.1, (hg _).mp h.2.2⟩, fun h => ⟨trivial, h.1, (hg _).mpr h.2⟩⟩

theorem fits_scenario (s : Scenario) : Scenario.codec.Fits s ↔ ShortScenario s :=
  and_congr Iff.rfl (forall₂_congr fun v _ => fits_schedule v)

end Lengths

section Texts

def chars (bs : List UInt8) : List Char := bs.map fun b => Char.ofNat b.toNat

variable {bs : List UInt8} {b : UInt8} {t : List Char} {m : Message}

def VisibleByte (b : UInt8) : Prop :=
  String.utf8EncodeChar (Char.ofNat b.toNat) = [b] ∧ Text.isBlank (Char.ofNat b.toNat) = false

instance (b : UInt8) : Decidable (VisibleByte b) := inferInstanceAs (Decidable (_ ∧ _))

theorem visibleByte_encode (bs : List UInt8) : ∀ b ∈ Base64.encode bs, VisibleByte b := by
  have hs : ∀ v < 64, VisibleByte (Base64.symbol v) := by decide +kernel
  have hp : VisibleByte Base64.pad := by decide +kernel
  rw [Sextets.encode_eq]
  intro b hb
  rcases List.mem_append.mp hb with hb | hb
  · obtain ⟨v, hv, rfl⟩ := List.mem_map.mp hb
    exact hs v (Sextets.sextets_lt bs v hv)
  · exact List.eq_of_mem_replicate hb ▸ hp

theorem utf8_chars (h : ∀ b ∈ bs, VisibleByte b) : Bytes.utf8 (String.ofList (chars bs)) = bs := by
  rw [BlockEncoding.utf8_ofList]
  induction bs with
  | nil => rfl
  | cons b bs ih =>
    obtain ⟨hb, hbs⟩ := List.forall_mem_cons.mp h
    rw [chars, List.map_cons, List.flatMap_cons, hb.1]
    exact congrArg (b :: ·) (ih hbs)

theorem utf8_injective {s t : List Char}
    (h : Bytes.utf8 (String.ofList s) = Bytes.utf8 (String.ofList t)) : s = t := by
  have hb := ByteArray.ext (Array.toList_inj.mp h)
  exact String.ofList_injective (String.toByteArray_inj.mp hb)

theorem trim_of_filled (ht : ∀ c ∈ t, Text.isBlank c = false) : Text.trim t = t := by
  have hd : ∀ cs : List Char, (∀ c ∈ cs, Text.isBlank c = false) →
      cs.dropWhile Text.isBlank = cs := by
    intro cs hcs
    cases cs with
    | nil => rfl
    | cons c cs =>
      refine List.dropWhile_cons_of_neg ?_
      rw [hcs c List.mem_cons_self]
      exact Bool.false_ne_true
  unfold Text.trim
  rw [hd _ ht, hd _ fun c h => ht c (List.mem_reverse.mp h), List.reverse_reverse]

theorem filled_chars (h : ∀ b ∈ bs, VisibleByte b) : ∀ c ∈ chars bs, Text.isBlank c = false := by
  intro c hc
  obtain ⟨b, hb, rfl⟩ := List.mem_map.mp hc
  exact (h b hb).2

theorem trim_chars (h : ∀ b ∈ bs, VisibleByte b) : Text.trim (chars bs) = chars bs :=
  trim_of_filled (filled_chars h)

theorem encodeMessage_of_short (hm : ShortMessage m) :
    Corpus.encodeMessage m = chars (Base64.encode (Message.codec.encode m)) := by
  have hw : Message.codec.write m = some (Message.codec.encode m) :=
    if_pos ((fits_message m).mpr hm)
  unfold Corpus.encodeMessage
  rw [hw]
  rfl

/-- What cannot be written has the empty text. -/
theorem encodeMessage_of_long (hm : ¬ ShortMessage m) : Corpus.encodeMessage m = [] := by
  have hw : Message.codec.write m = none := if_neg fun hf => hm ((fits_message m).mp hf)
  unfold Corpus.encodeMessage
  rw [hw]
  rfl

theorem decodeMessage_encodeMessage (hm : ShortMessage m) :
    Corpus.decodeMessage (Corpus.encodeMessage m) = .ok m := by
  have hp := visibleByte_encode (Message.codec.encode m)
  unfold Corpus.decodeMessage Corpus.decodeLine
  rw [encodeMessage_of_short hm, trim_chars hp, utf8_chars hp, Sextets.decode_encode]
  dsimp only
  rw [(lawful_message.exact ((fits_message m).mpr hm)).read_encode]

theorem encodeMessage_of_decodeMessage (h : Corpus.decodeMessage t = .ok m) :
    ShortMessage m ∧ Corpus.encodeMessage m = Text.trim t := by
  unfold Corpus.decodeMessage Corpus.decodeLine at h
  split at h
  · cases h
  · rename_i bytes hd
    split at h
    · cases h
    · rename_i m' hr
      cases h
      obtain ⟨hf, rfl⟩ := canonical_message.of_read hr
      have hs := (fits_message m).mp hf
      refine ⟨hs, utf8_injective ?_⟩
      rw [Sextets.eq_encode_of_decode hd, encodeMessage_of_short hs]
      exact utf8_chars (visibleByte_encode _)

end Texts

/-- Encodings stand for values one to one, and so do the texts of messages, but for the blanks
around them. -/
structure OneToOne : Prop where
  message : ∀ m, ShortMessage m → ReadsExactly Message.codec m
  block : ∀ b, ShortBlock b → ReadsExactly Block.codec b
  qc : ∀ q : QuorumCertificate, Short q.signatures → ReadsExactly QuorumCertificate.codec q
  tc : ∀ tc : TimeoutCertificate, Short tc.signatures → ReadsExactly TimeoutCertificate.codec tc
  sync : ∀ s, ShortSync s → ReadsExactly SyncInfo.codec s
  signature : ∀ s, ReadsExactly Signature.codec s
  nodeSet : ∀ s : NodeSet, Short s.nodes → ReadsExactly NodeSet.codec s
  schedule : ∀ v, ShortSchedule v → ReadsExactly ViewSchedule.codec v
  scenario : ∀ s, ShortScenario s → ReadsExactly Scenario.codec s
  accepted : ∀ bs m, Message.codec.read bs = .ok m → ShortMessage m ∧ bs = Message.codec.encode m
  readable : ∀ m, ShortMessage m → Corpus.decodeMessage (Corpus.encodeMessage m) = .ok m
  canonical : ∀ t m, Corpus.decodeMessage t = .ok m →
    ShortMessage m ∧ Corpus.encodeMessage m = Text.trim t
  distinct : ∀ t t' m, Corpus.decodeMessage t = .ok m → Corpus.decodeMessage t' = .ok m →
    Text.trim t = Text.trim t'

theorem encodings_one_to_one : OneToOne where
  message m h := lawful_message.exact ((fits_message m).mpr h)
  block b h := lawful_block.exact ((fits_block b).mpr h)
  qc q h := lawful_qc.exact ((fits_qc q).mpr h)
  tc tc h := lawful_tc.exact ((fits_tc tc).mpr h)
  sync s h := lawful_sync.exact ((fits_sync s).mpr h)
  signature _ := lawful_signature.exact ⟨trivial, trivial⟩
  nodeSet s h := lawful_nodeSet.exact ((fits_nodeSet s).mpr h)
  schedule v h := lawful_schedule.exact ((fits_schedule v).mpr h)
  scenario s h := lawful_scenario.exact ((fits_scenario s).mpr h)
  accepted _ m h := ((canonical_message.of_read h).imp_left (fits_message m).mp)
  readable _ := decodeMessage_encodeMessage
  canonical _ _ := encodeMessage_of_decodeMessage
  distinct _ _ _ h h' :=
    (encodeMessage_of_decodeMessage h).2.symm.trans (encodeMessage_of_decodeMessage h').2

def certifiedProposal : Message :=
  .propose ⟨Block.ofContents ⟨Block.genesisHash,
    some ⟨.ofNat 1, Block.genesisHash, [⟨.ofNat 2, ⟨List.replicate 64 7, by decide⟩⟩]⟩,
    [104, 105], .ofNat 3, .ofNat 4⟩⟩

theorem encodings_one_to_one_certified :
    ShortMessage certifiedProposal ∧
      Corpus.decodeMessage (Corpus.encodeMessage certifiedProposal) = .ok certifiedProposal ∧
      Corpus.encodeMessage certifiedProposal = Text.trim (Corpus.encodeMessage certifiedProposal) ∧
      Message.codec.read (Message.codec.encode certifiedProposal ++ [0]) =
        .error .trailingBytes := by
  have hs : ShortMessage certifiedProposal := by
    refine ⟨(by decide : 2 < 0x100000000), fun q hq => ?_⟩
    cases Option.mem_some.mp hq
    exact (by decide : 1 < 0x100000000)
  have hr := encodings_one_to_one.readable certifiedProposal hs
  exact ⟨hs, hr, (encodings_one_to_one.canonical _ _ hr).2,
    (encodings_one_to_one.message certifiedProposal hs).extended [0] (List.cons_ne_nil _ _)⟩

end Equivocation.Proofs.RoundTrips
