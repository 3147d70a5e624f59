import Equivocation.Proofs.Splitting
import Equivocation.Scenario.Forms

namespace Equivocation.Proofs.Codecs

open Wire

/-- What a decoder finds at the front of the bytes does not depend on what follows, unless the bytes
run out on it. -/
structure Streaming {α : Type} (d : Decoder α) : Prop where
  accepts : ∀ {bs x rest} (s : List UInt8), d bs = .ok (x, rest) → d (bs ++ s) = .ok (x, rest ++ s)
  refuses : ∀ {bs e} (s : List UInt8), d bs = .error e → e ≠ .unexpectedEnd → d (bs ++ s) = .error e

structure Lawful {α : Type} (c : Codec α) : Prop where
  streaming : Streaming c.decode
  decode_encode : ∀ x rest, c.Fits x → c.decode (c.encode x ++ rest) = .ok (x, rest)

/-- Only what can be written is read, so no value has two encodings. -/
structure Canonical {α : Type} (c : Codec α) : Prop where
  encode_decode : ∀ {bs x rest}, c.decode bs = .ok (x, rest) → c.Fits x ∧ bs = c.encode x ++ rest

/-- A value is read from its encoding, and from no beginning and no extension of it. -/
structure ReadsExactly {α : Type} (c : Codec α) (x : α) : Prop where
  read_encode : c.read (c.encode x) = .ok x
  truncated : ∀ bs s, bs ++ s = c.encode x → s ≠ [] → c.read bs = .error .unexpectedEnd
  extended : ∀ s, s ≠ [] → c.read (c.encode x ++ s) = .error .trailingBytes

def andThen {α β : Type} (d : Decoder α) (next : α → Decoder β) : Decoder β := fun bs =>
  match d bs with
  | .error e => .error e
  | .ok (x, rest) => next x rest

def done {α : Type} (x : α) : Decoder α := fun bs => .ok (x, bs)

def build {α β : Type} (c : Codec α) (make : α → β) : Decoder β :=
  andThen c.decode fun x => done (make x)

variable {α β : Type} {a c : Codec α} {b : Codec β} {bs rest s : List UInt8} {x : α} {y : β}
  {e : Malformed} {d : Decoder α} {next : α → Decoder β} {n : Nat} {make : α → β} {parts : β → α}

section Reading

theorem read_of_decode (h : c.decode bs = .ok (x, rest)) :
    c.read bs = if rest = [] then .ok x else .error .trailingBytes := by
  unfold Codec.read
  rw [h]
  cases rest <;> rfl

theorem read_of_error (h : c.decode bs = .error e) : c.read bs = .error e := by
  unfold Codec.read
  rw [h]

theorem Lawful.exact (h : Lawful c) (hx : c.Fits x) : ReadsExactly c x where
  read_encode := by
    have hd := h.decode_encode x [] hx
    rw [List.append_nil] at hd
    rw [read_of_decode hd, if_pos rfl]
  truncated bs s hs hne := by
    have hd := h.decode_encode x [] hx
    rw [List.append_nil, ← hs] at hd
    cases hb : c.decode bs with
    | error e =>
      by_cases he : e = .unexpectedEnd
      · rw [read_of_error hb, he]
      · cases (h.streaming.refuses s hb he).symm.trans hd
    | ok p =>
      have ha := (h.streaming.accepts s hb).symm.trans hd
      exact absurd (List.append_eq_nil_iff.mp (Prod.mk.inj (Except.ok.inj ha)).2).2 hne
  extended s hne := by rw [read_of_decode (h.decode_encode x s hx), if_neg hne]

theorem Canonical.of_read (h : Canonical c) (hr : c.read bs = .ok x) :
    c.Fits x ∧ bs = c.encode x := by
  unfold Codec.read at hr
  split at hr
  · cases hr
  · rename_i hd
    obtain ⟨hf, hb⟩ := h.encode_decode hd
    rw [← Except.ok.inj hr]
    exact ⟨hf, hb.trans (List.append_nil _)⟩
  · cases hr

end Reading

section Sequences

theorem andThen_ok (h : d bs = .ok (x, rest)) : andThen d next bs = next x rest := by
  unfold andThen
  rw [h]

theorem andThen_eq_ok {p : β × List UInt8} :
    andThen d next bs = .ok p ↔ ∃ x rest, d bs = .ok (x, rest) ∧ next x rest = .ok p := by
  unfold andThen
  constructor
  · intro h
    split at h
    · cases h
    · exact ⟨_, _, ‹_›, h⟩
  · rintro ⟨x, rest, hd, hn⟩
    rw [hd]
    exact hn

theorem Streaming.done (x : α) : Streaming (done x) where
  accepts s h := by
    cases h
    rfl
  refuses s h := by cases h

theorem Streaming.fail (e : Malformed) : Streaming fun _ => (.error e : Except _ (α × _)) where
  accepts s h := by cases h
  refuses s h _ := h

theorem Streaming.andThen (h : Streaming d) (hn : ∀ x, Streaming (next x)) :
    Streaming (andThen d next) where
  accepts s hp := by
    obtain ⟨x, rest, hd, hp⟩ := andThen_eq_ok.mp hp
    rw [andThen_ok (h.accepts s hd), (hn x).accepts s hp]
  refuses {bs e} s he hne := by
    unfold Codecs.andThen at he ⊢
    cases hd : d bs with
    | error e' =>
      rw [hd] at he
      cases he
      rw [h.refuses s hd hne]
    | ok p =>
      rw [hd] at he
      rw [h.accepts s hd]
      exact (hn _).refuses s he hne

theorem Lawful.streaming_build (h : Lawful c) (make : α → β) : Streaming (build c make) :=
  h.streaming.andThen fun _ => .done _

theorem Lawful.build_encode (h : Lawful c) (make : α → β) (rest : List UInt8) (hx : c.Fits x) :
    build c make (c.encode x ++ rest) = .ok (make x, rest) :=
  andThen_ok (h.decode_encode x rest hx)

theorem Canonical.encode_build (h : Canonical c) (hb : build c make bs = .ok (y, rest)) :
    ∃ x, y = make x ∧ c.Fits x ∧ bs = c.encode x ++ rest := by
  obtain ⟨x, mid, hx, hb⟩ := andThen_eq_ok.mp hb
  cases hb
  exact ⟨x, rfl, h.encode_decode hx⟩

theorem build_eq_map (c : Codec α) (make : α → β) (bs : List UInt8) :
    (c.decode bs).map (fun p => (make p.1, p.2)) = build c make bs := by
  unfold build andThen
  cases c.decode bs <;> rfl

theorem Streaming.byte {d : List UInt8 → Except Malformed (α × List UInt8)}
    {f : UInt8 → Decoder α} (hnil : d [] = .error .unexpectedEnd)
    (hcons : ∀ b bs, d (b :: bs) = f b bs) (h : ∀ b, Streaming (f b)) : Streaming d where
  accepts {bs _ _} s hp := by
    cases bs with
    | nil => cases hnil.symm.trans hp
    | cons b bs =>
      rw [hcons] at hp
      rw [List.cons_append, hcons]
      exact (h b).accepts s hp
  refuses {bs _} s he hne := by
    cases bs with
    | nil =>
      cases hnil.symm.trans he
      exact absurd rfl hne
    | cons b bs =>
      rw [hcons] at he
      rw [List.cons_append, hcons]
      exact (h b).refuses s he hne

end Sequences

section Numbers

theorem raw_eq_ok {x : { bs : List UInt8 // bs.length = n }} :
    (Codec.raw n).decode bs = .ok (x, rest) ↔ bs = x.1 ++ rest := by
  unfold Codec.raw
  dsimp only
  constructor
  · intro h
    split at h
    · cases h
      exact (List.take_append_drop n bs).symm
    · cases h
  · rintro rfl
    have hn : n ≤ (x.1 ++ rest).length := by
      rw [List.length_append, x.2]
      exact Nat.le_add_right _ _
    simp only [dif_pos hn, List.take_left' x.2, List.drop_left' x.2]

theorem canonical_raw (n : Nat) : Canonical (Codec.raw n) :=
  ⟨fun h => ⟨trivial, raw_eq_ok.mp h⟩⟩

theorem lawful_raw (n : Nat) : Lawful (Codec.raw n) where
  streaming := {
    accepts := fun s h => raw_eq_ok.mpr (by rw [raw_eq_ok.mp h, List.append_assoc])
    refuses := fun s h he => by
      unfold Codec.raw at h
      dsimp only at h
      split at h
      · cases h
      · cases h
        exact absurd rfl he }
  decode_encode _ _ _ := raw_eq_ok.mpr rfl

def ofDigits (digits : { bs : List UInt8 // bs.length = n }) :
    { n' : Nat // n' < Bytes.capacity n } :=
  ⟨Bytes.ofLittleEndian digits.1, by
    have h := Bytes.ofLittleEndian_lt digits.1
    rwa [digits.2] at h⟩

theorem fixed_decode (width : Nat) :
    (Codec.fixed width).decode = build (Codec.raw width) ofDigits := by
  funext bs
  unfold Codec.fixed build andThen
  dsimp only
  cases (Codec.raw width).decode bs <;> rfl

theorem canonical_fixed (width : Nat) : Canonical (Codec.fixed width) := by
  refine ⟨fun {bs x rest} h => ?_⟩
  rw [fixed_decode] at h
  obtain ⟨⟨digits, rfl⟩, rfl, -, hd⟩ := (canonical_raw _).encode_build h
  refine ⟨trivial, hd.trans ?_⟩
  exact congrArg (· ++ rest) (Bytes.littleEndian_ofLittleEndian digits).symm

theorem lawful_fixed (width : Nat) : Lawful (Codec.fixed width) where
  streaming := by
    rw [fixed_decode]
    exact (lawful_raw width).streaming_build ofDigits
  decode_encode x rest _ := by
    have hd := (lawful_raw width).build_encode ofDigits rest
      (x := ⟨Bytes.littleEndian width x.1, Bytes.length_littleEndian _ _⟩) trivial
    have hx : ofDigits ⟨Bytes.littleEndian width x.1, Bytes.length_littleEndian _ _⟩ = x :=
      Subtype.ext (Bytes.ofLittleEndian_littleEndian width x.1 x.2)
    rw [hx] at hd
    rwa [fixed_decode]

end Numbers

section Combinators

theorem Lawful.map (h : Lawful c) (hm : ∀ y, make (parts y) = y) : Lawful (c.map make parts) where
  streaming := h.streaming_build make
  decode_encode y rest hy := by
    have hd := h.build_encode make rest hy
    rwa [hm] at hd

theorem Canonical.map (h : Canonical c) (hp : ∀ x, parts (make x) = x) :
    Canonical (c.map make parts) := by
  refine ⟨fun {bs y rest} hd => ?_⟩
  have hd : build c make bs = .ok (y, rest) := hd
  obtain ⟨x, rfl, hx⟩ := h.encode_build hd
  rw [← hp x] at hx
  exact hx

theorem pair_decode (a : Codec α) (b : Codec β) :
    (a.pair b).decode = andThen a.decode fun x => andThen b.decode fun y => done (x, y) := rfl

theorem Lawful.pair (ha : Lawful a) (hb : Lawful b) : Lawful (a.pair b) where
  streaming := ha.streaming.andThen fun _ => hb.streaming.andThen fun _ => .done _
  decode_encode p rest hp := by
    have henc : (a.pair b).encode p ++ rest = a.encode p.1 ++ (b.encode p.2 ++ rest) :=
      List.append_assoc _ _ _
    rw [henc, pair_decode, andThen_ok (ha.decode_encode p.1 _ hp.1),
      andThen_ok (hb.decode_encode p.2 rest hp.2)]
    rfl

theorem Canonical.pair (ha : Canonical a) (hb : Canonical b) : Canonical (a.pair b) := by
  refine ⟨fun {bs p rest} hd => ?_⟩
  rw [pair_decode] at hd
  obtain ⟨x, mid, hx, hd⟩ := andThen_eq_ok.mp hd
  obtain ⟨y, rest', hy, hd⟩ := andThen_eq_ok.mp hd
  cases hd
  obtain ⟨hfx, hx⟩ := ha.encode_decode hx
  obtain ⟨hfy, hy⟩ := hb.encode_decode hy
  refine ⟨⟨hfx, hfy⟩, ?_⟩
  rw [hx, hy]
  exact (List.append_assoc _ _ _).symm

theorem option_decode_cons (c : Codec α) (flag : UInt8) (bs : List UInt8) :
    (Codec.option c).decode (flag :: bs) =
      (if flag = 0 then done none
        else if flag = 1 then build c some
        else fun _ => .error (.presence flag) : Decoder (Option α)) bs := by
  unfold Codec.option
  dsimp only
  split
  · rfl
  · split <;> rfl

theorem Lawful.option (h : Lawful c) : Lawful (Codec.option c) where
  streaming := by
    refine .byte rfl (option_decode_cons c) fun flag => ?_
    split
    · exact .done _
    · split
      · exact h.streaming_build some
      · exact .fail _
  decode_encode x? rest hx := by
    cases x? with
    | none => rfl
    | some x =>
      have henc : (Codec.option c).encode (some x) ++ rest = 1 :: (c.encode x ++ rest) := rfl
      rw [henc, option_decode_cons, if_neg (by decide), if_pos rfl, h.build_encode some rest hx]

theorem Canonical.option (h : Canonical c) : Canonical (Codec.option c) := by
  refine ⟨fun {bs x? rest} hd => ?_⟩
  cases bs with
  | nil => cases hd
  | cons flag bs =>
    rw [option_decode_cons] at hd
    split at hd
    · rename_i hz
      cases hd
      exact ⟨trivial, hz ▸ rfl⟩
    · split at hd
      · rename_i ho
        obtain ⟨x, rfl, hf, hx⟩ := h.encode_build hd
        exact ⟨hf, by rw [hx, ho]; rfl⟩
      · cases hd

theorem decodeMany_succ (d : Decoder α) (n : Nat) :
    Codec.decodeMany d (n + 1) =
      andThen d fun x => andThen (Codec.decodeMany d n) fun xs => done (x :: xs) := by
  funext bs
  unfold andThen
  rw [Codec.decodeMany]
  rcases d bs with e | ⟨x, mid⟩
  · rfl
  · dsimp only
    cases Codec.decodeMany d n mid <;> rfl

theorem streaming_decodeMany (h : Streaming d) (n : Nat) : Streaming (Codec.decodeMany d n) := by
  induction n with
  | zero => exact .done []
  | succ n ih =>
    rw [decodeMany_succ]
    exact h.andThen fun _ => ih.andThen fun _ => .done _

theorem decodeMany_encode (h : Lawful c) (xs : List α) (hx : ∀ x ∈ xs, c.Fits x) :
    Codec.decodeMany c.decode xs.length (xs.flatMap c.encode ++ rest) = .ok (xs, rest) := by
  induction xs with
  | nil => rfl
  | cons x xs ih =>
    obtain ⟨hx, hxs⟩ := List.forall_mem_cons.mp hx
    rw [List.length_cons, List.flatMap_cons, List.append_assoc, decodeMany_succ,
      andThen_ok (h.decode_encode x _ hx), andThen_ok (ih hxs)]
    rfl

theorem encode_decodeMany (h : Canonical c) {xs : List α}
    (hd : Codec.decodeMany c.decode n bs = .ok (xs, rest)) :
    xs.length = n ∧ (∀ x ∈ xs, c.Fits x) ∧ bs = xs.flatMap c.encode ++ rest := by
  induction n generalizing bs xs with
  | zero =>
    cases hd
    exact ⟨rfl, fun x hx => absurd hx List.not_mem_nil, rfl⟩
  | succ n ih =>
    rw [decodeMany_succ] at hd
    obtain ⟨x, mid, hx, hd⟩ := andThen_eq_ok.mp hd
    obtain ⟨xs, rest', hxs, hd⟩ := andThen_eq_ok.mp hd
    cases hd
    obtain ⟨hf, rfl⟩ := h.encode_decode hx
    obtain ⟨hl, hfs, rfl⟩ := ih hxs
    refine ⟨by rw [List.length_cons, hl], List.forall_mem_cons.mpr ⟨hf, hfs⟩, ?_⟩
    rw [List.flatMap_cons, List.append_assoc]

theorem list_decode (c : Codec α) :
    (Codec.list c).decode =
      andThen (Codec.fixed 4).decode fun n => Codec.decodeMany c.decode n.1 := by
  funext bs
  unfold Codec.list andThen
  dsimp only
  cases (Codec.fixed 4).decode bs with
  | error e => rfl
  | ok p => rfl

theorem capacity_four : Bytes.capacity 4 = 0x100000000 := rfl

theorem Lawful.list (h : Lawful c) : Lawful (Codec.list c) where
  streaming := by
    rw [list_decode]
    exact (lawful_fixed 4).streaming.andThen fun n => streaming_decodeMany h.streaming n.1
  decode_encode xs rest hx := by
    have henc : (Codec.list c).encode xs ++ rest =
        (Codec.fixed 4).encode ⟨xs.length, capacity_four ▸ hx.1⟩ ++
          (xs.flatMap c.encode ++ rest) :=
      List.append_assoc _ _ _
    rw [henc, list_decode, andThen_ok ((lawful_fixed 4).decode_encode _ _ trivial)]
    exact decodeMany_encode h xs hx.2

theorem Canonical.list (h : Canonical c) : Canonical (Codec.list c) := by
  refine ⟨fun {bs xs rest} hd => ?_⟩
  rw [list_decode] at hd
  obtain ⟨n, mid, hn, hd⟩ := andThen_eq_ok.mp hd
  obtain ⟨hl, hf, hmid⟩ := encode_decodeMany h hd
  refine ⟨⟨hl ▸ capacity_four ▸ n.2, hf⟩, ((canonical_fixed 4).encode_decode hn).2.trans ?_⟩
  rw [hmid, ← List.append_assoc]
  exact congrArg (Bytes.littleEndian 4 · ++ _ ++ _) hl.symm

theorem byteList_decode :
    Codec.byteList.decode =
      andThen (Codec.fixed 4).decode fun n =>
        andThen (Codec.raw n.1).decode fun bs => done bs.1 := by
  funext bs
  unfold Codec.byteList andThen
  dsimp only
  rcases (Codec.fixed 4).decode bs with e | ⟨n, mid⟩
  · rfl
  · dsimp only
    cases (Codec.raw n.1).decode mid <;> rfl

theorem lawful_byteList : Lawful Codec.byteList where
  streaming := by
    rw [byteList_decode]
    exact (lawful_fixed 4).streaming.andThen fun n =>
      (lawful_raw n.1).streaming.andThen fun _ => .done _
  decode_encode xs rest hx := by
    have henc : Codec.byteList.encode xs ++ rest =
        (Codec.fixed 4).encode ⟨xs.length, capacity_four ▸ hx⟩ ++ (xs ++ rest) :=
      List.append_assoc _ _ _
    have hd : (Codec.raw xs.length).decode (xs ++ rest) = .ok (⟨xs, rfl⟩, rest) :=
      raw_eq_ok.mpr rfl
    rw [henc, byteList_decode, andThen_ok ((lawful_fixed 4).decode_encode _ _ trivial),
      andThen_ok hd]
    rfl

theorem canonical_byteList : Canonical Codec.byteList := by
  refine ⟨fun {bs xs rest} hd => ?_⟩
  rw [byteList_decode] at hd
  obtain ⟨n, mid, hn, hd⟩ := andThen_eq_ok.mp hd
  obtain ⟨⟨ys, hl⟩, rest', hr, hd⟩ := andThen_eq_ok.mp hd
  obtain ⟨rfl, rfl⟩ := Prod.mk.inj (Except.ok.inj hd)
  refine ⟨show ys.length < 0x100000000 from hl ▸ capacity_four ▸ n.2,
    ((canonical_fixed 4).encode_decode hn).2.trans ?_⟩
  rw [raw_eq_ok.mp hr, ← List.append_assoc]
  exact congrArg (Bytes.littleEndian 4 · ++ _ ++ _) hl.symm

end Combinators

section Consensus

theorem lawful_replica : Lawful ReplicaId.codec := (lawful_fixed 4).map fun _ => rfl

theorem canonical_replica : Canonical ReplicaId.codec := (canonical_fixed 4).map fun _ => rfl

theorem lawful_node : Lawful NodeId.codec := (lawful_fixed 4).map fun _ => rfl

theorem lawful_view : Lawful View.codec := (lawful_fixed 8).map fun _ => rfl

theorem canonical_view : Canonical View.codec := (canonical_fixed 8).map fun _ => rfl

theorem lawful_hash : Lawful Hash.codec := (lawful_raw 32).map fun _ => rfl

theorem canonical_hash : Canonical Hash.codec := (canonical_raw 32).map fun _ => rfl

theorem lawful_signature : Lawful Signature.codec :=
  (lawful_replica.pair ((lawful_raw 64).map fun _ => rfl)).map fun _ => rfl

theorem canonical_signature : Canonical Signature.codec :=
  (canonical_replica.pair ((canonical_raw 64).map fun _ => rfl)).map fun _ => rfl

theorem lawful_qc : Lawful QuorumCertificate.codec :=
  (lawful_view.pair (lawful_hash.pair lawful_signature.list)).map fun _ => rfl

theorem canonical_qc : Canonical QuorumCertificate.codec :=
  (canonical_view.pair (canonical_hash.pair canonical_signature.list)).map fun _ => rfl

theorem lawful_tc : Lawful TimeoutCertificate.codec :=
  (lawful_view.pair lawful_signature.list).map fun _ => rfl

theorem canonical_tc : Canonical TimeoutCertificate.codec :=
  (canonical_view.pair canonical_signature.list).map fun _ => rfl

theorem lawful_sync : Lawful SyncInfo.codec :=
  (lawful_qc.option.pair lawful_tc.option).map fun _ => rfl

theorem canonical_sync : Canonical SyncInfo.codec :=
  (canonical_qc.option.pair canonical_tc.option).map fun _ => rfl

/-- The hash need not be written: it follows from what is. -/
theorem lawful_block : Lawful Block.codec :=
  (lawful_hash.pair (lawful_replica.pair (lawful_byteList.pair
    (lawful_qc.option.pair lawful_view)))).map Block.ofContents_toContents

theorem canonical_block : Canonical Block.codec :=
  (canonical_hash.pair (canonical_replica.pair (canonical_byteList.pair
    (canonical_qc.option.pair canonical_view)))).map fun _ => rfl

theorem lawful_proposal : Lawful Proposal.codec := lawful_block.map fun _ => rfl

theorem canonical_proposal : Canonical Proposal.codec := canonical_block.map fun _ => rfl

theorem lawful_vote : Lawful Vote.codec :=
  (lawful_view.pair (lawful_hash.pair lawful_signature)).map fun _ => rfl

theorem canonical_vote : Canonical Vote.codec :=
  (canonical_view.pair (canonical_hash.pair canonical_signature)).map fun _ => rfl

theorem lawful_timeout : Lawful Timeout.codec :=
  (lawful_view.pair (lawful_signature.pair lawful_qc)).map fun _ => rfl

theorem canonical_timeout : Canonical Timeout.codec :=
  (canonical_view.pair (canonical_signature.pair canonical_qc)).map fun _ => rfl

theorem lawful_newView : Lawful NewView.codec := (lawful_view.pair lawful_sync).map fun _ => rfl

theorem canonical_newView : Canonical NewView.codec :=
  (canonical_view.pair canonical_sync).map fun _ => rfl

theorem message_decode_cons (kind : UInt8) (bs : List UInt8) :
    Message.codec.decode (kind :: bs) =
      (if kind = 0 then build Proposal.codec .propose
        else if kind = 1 then build Vote.codec .vote
        else if kind = 2 then build Timeout.codec .timeout
        else if kind = 3 then build NewView.codec .newView
        else fun _ => .error (.variant kind) : Decoder Message) bs := by
  unfold Message.codec
  dsimp only
  simp only [build_eq_map]
  split
  · rfl
  · split
    · rfl
    · split
      · rfl
      · split <;> rfl

theorem lawful_message : Lawful Message.codec where
  streaming := by
    refine .byte rfl message_decode_cons fun kind => ?_
    split
    · exact lawful_proposal.streaming_build _
    · split
      · exact lawful_vote.streaming_build _
      · split
        · exact lawful_timeout.streaming_build _
        · split
          · exact lawful_newView.streaming_build _
          · exact .fail _
  decode_encode m rest hm := by
    cases m with
    | propose p => exact (message_decode_cons 0 _).trans (lawful_proposal.build_encode _ rest hm)
    | vote v => exact (message_decode_cons 1 _).trans (lawful_vote.build_encode _ rest hm)
    | timeout t => exact (message_decode_cons 2 _).trans (lawful_timeout.build_encode _ rest hm)
    | newView n => exact (message_decode_cons 3 _).trans (lawful_newView.build_encode _ rest hm)

theorem canonical_message : Canonical Message.codec := by
  refine ⟨fun {bs m rest} hd => ?_⟩
  cases bs with
  | nil => cases hd
  | cons kind bs =>
    rw [message_decode_cons] at hd
    split at hd
    · rename_i hk
      obtain ⟨p, rfl, hf, hb⟩ := canonical_proposal.encode_build hd
      exact ⟨hf, by rw [hb, hk]; rfl⟩
    · split at hd
      · rename_i hk
        obtain ⟨v, rfl, hf, hb⟩ := canonical_vote.encode_build hd
        exact ⟨hf, by rw [hb, hk]; rfl⟩
      · split at hd
        · rename_i hk
          obtain ⟨t, rfl, hf, hb⟩ := canonical_timeout.encode_build hd
          exact ⟨hf, by rw [hb, hk]; rfl⟩
        · split at hd
          · rename_i hk
            obtain ⟨n, rfl, hf, hb⟩ := canonical_newView.encode_build hd
            exact ⟨hf, by rw [hb, hk]; rfl⟩
          · cases hd

end Consensus

section Scenarios

/-- Nodes may be read in any order, but are written in one. -/
theorem lawful_nodeSet : Lawful NodeSet.codec :=
  lawful_node.list.map fun _ => Splitting.ext_nodes fun _ => Splitting.mem_ofList

theorem lawful_schedule : Lawful ViewSchedule.codec :=
  (lawful_replica.pair lawful_nodeSet.list).map fun _ => rfl

theorem lawful_scenario : Lawful Scenario.codec := lawful_schedule.list.map fun _ => rfl

end Scenarios

end Equivocation.Proofs.Codecs
