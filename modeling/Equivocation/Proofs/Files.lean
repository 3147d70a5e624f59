import Equivocation.Proofs.RoundTrips
import Equivocation.Proofs.Scenarios

namespace Equivocation.Proofs.Files

open RoundTrips

def file (text : List Char) : Storage := .directory (some (Bytes.utf8 (String.ofList text)))

def filled (line : List Char) : Bool := !(Text.trim line).isEmpty

/-- The lines of a text that are not blank, with their numbers. Lines count from 1, blank ones
included. -/
def entries (text : List Char) : List (List Char × Nat) :=
  ((Text.lines text).zipIdx 1).filter fun e => filled e.1

def line? : CorpusError → Option Nat
  | .decode line _ => some line
  | .deserialize line _ => some line
  | .invalidSeed line _ => some line
  | _ => none

/-- The decimal digits of a number, perhaps after zeros. -/
def Numeral (ds : List Char) (n : Nat) : Prop :=
  ds ≠ [] ∧ (∀ c ∈ ds, c.isDigit = true) ∧ Nat.ofDigitChars 10 ds 0 = n

def Spells (text : List Char) (n : Nat) : Prop :=
  Numeral text n ∨ ∃ ds, text = '+' :: ds ∧ Numeral ds n

/-- A text is read line by line: there is a value for every line that is not blank, or the first
line without a value decides the error. -/
structure Reads {α : Type} (value : Nat → List Char → Except CorpusError α) (text : List Char)
    (answer : Except CorpusError (List α)) : Prop where
  ok_iff : (∃ xs, answer = .ok xs) ↔ ∀ e ∈ entries text, ∃ x, value e.2 e.1 = .ok x
  values : ∀ xs, answer = .ok xs ↔
    List.Forall₂ (fun e x => value e.2 e.1 = .ok x) (entries text) xs
  first : ∀ error, answer = .error error ↔ ∃ before line i after,
    entries text = before ++ (line, i) :: after ∧
      (∀ e ∈ before, ∃ x, value e.2 e.1 = .ok x) ∧ value i line = .error error
  numbered : ∀ i line error, value i line = .error error → line? error = some i

/-- What is saved is loaded again. Any text is read by its lines, and a line has a value exactly if
it is the text of one, but for blanks around it. -/
structure Faithful : Prop where
  messagesKept : ∀ ms, (∀ m ∈ ms, ShortMessage m) → ∀ old, ∃ s,
    Corpus.saveMessages ms (.directory old) = .ok s ∧ Corpus.loadMessages s = .ok ms
  seedsKept : ∀ ns, (∀ n ∈ ns, n < 2 ^ 64) → ∀ old, ∃ s,
    Corpus.saveSeeds ns (.directory old) = .ok s ∧ Corpus.loadSeeds s = .ok ns
  messagesRead : ∀ text, Reads Corpus.decodeLine text (Corpus.loadMessages (file text))
  seedsRead : ∀ text, Reads Corpus.decodeSeed text (Corpus.loadSeeds (file text))
  messageLine : ∀ i line m, Corpus.decodeLine i line = .ok m ↔
    ShortMessage m ∧ Text.trim line = Corpus.encodeMessage m
  seedLine : ∀ i line n, Corpus.decodeSeed i line = .ok n ↔
    n < 2 ^ 64 ∧ Spells (Text.trim line) n
  split : ∀ text, ∃ ended rest, text = Text.unlines ended ++ rest ∧
    (∀ l ∈ ended, '\n' ∉ l) ∧ '\n' ∉ rest ∧
      Text.lines text = ended.map Text.dropReturn ++ if rest = [] then [] else [rest]

variable {α : Type} {value : Nat → List Char → Except CorpusError α} {text line rest : List Char}
  {ls : List (List Char)} {i n m limit : Nat} {cs ds : List Char}

section Lines

theorem splitFeeds_line (h : '\n' ∉ line) (cs : List Char) :
    Text.splitFeeds (line ++ '\n' :: cs) =
      (line :: (Text.splitFeeds cs).1, (Text.splitFeeds cs).2) := by
  induction line with
  | nil => simp [Text.splitFeeds]
  | cons c line ih =>
    obtain ⟨hc, hl⟩ := List.ne_and_not_mem_of_not_mem_cons h
    rw [List.cons_append, Text.splitFeeds, ih hl]
    simp [Ne.symm hc]

theorem splitFeeds_unlines (h : ∀ l ∈ ls, '\n' ∉ l) :
    Text.splitFeeds (Text.unlines ls) = (ls, []) := by
  induction ls with
  | nil => rfl
  | cons l ls ih =>
    obtain ⟨hl, hls⟩ := List.forall_mem_cons.mp h
    have he : Text.unlines (l :: ls) = l ++ '\n' :: Text.unlines ls := by simp [Text.unlines]
    rw [he, splitFeeds_line hl, ih hls]

/-- Line feeds stand after the pieces and nowhere else. -/
theorem splitFeeds_spec (cs : List Char) :
    cs = Text.unlines (Text.splitFeeds cs).1 ++ (Text.splitFeeds cs).2 ∧
      (∀ l ∈ (Text.splitFeeds cs).1, '\n' ∉ l) ∧ '\n' ∉ (Text.splitFeeds cs).2 := by
  induction cs with
  | nil => exact ⟨rfl, nofun, List.not_mem_nil⟩
  | cons c cs ih =>
    obtain ⟨he, hended, hrest⟩ := ih
    rw [Text.splitFeeds]
    generalize Text.splitFeeds cs = pieces at he hended hrest
    obtain ⟨ended, rest⟩ := pieces
    dsimp only at he hended hrest ⊢
    by_cases hc : c = '\n'
    · simp only [hc, if_true]
      refine ⟨?_, List.forall_mem_cons.mpr ⟨List.not_mem_nil, hended⟩, hrest⟩
      rw [he]
      simp [Text.unlines]
    · simp only [hc, if_false]
      cases ended with
      | nil =>
        refine ⟨?_, nofun, List.not_mem_cons_of_ne_of_not_mem (Ne.symm hc) hrest⟩
        rw [he]
        simp [Text.unlines]
      | cons l ended =>
        obtain ⟨hl, hended⟩ := List.forall_mem_cons.mp hended
        have hcl := List.not_mem_cons_of_ne_of_not_mem (Ne.symm hc) hl
        refine ⟨?_, List.forall_mem_cons.mpr ⟨hcl, hended⟩, hrest⟩
        rw [he]
        simp [Text.unlines]

theorem lines_unlines (h : ∀ l ∈ ls, '\n' ∉ l ∧ '\r' ∉ l) : Text.lines (Text.unlines ls) = ls := by
  have hr : ∀ l ∈ ls, Text.dropReturn l = l := by
    intro l hl
    refine if_neg fun hlast => (h l hl).2 (List.mem_of_getLast? hlast)
  unfold Text.lines
  rw [splitFeeds_unlines fun l hl => (h l hl).1]
  simp [List.map_congr_left hr]

end Lines

section Reading

theorem read_file (text : List Char) : (file text).read = .ok text := by
  have hb : (⟨(Bytes.utf8 (String.ofList text)).toArray⟩ : ByteArray) =
      (String.ofList text).toByteArray := by
    simp [Bytes.utf8]
  have hs : String.fromUTF8? ⟨(Bytes.utf8 (String.ofList text)).toArray⟩ =
      some (String.ofList text) := by
    rw [hb]
    exact dif_pos (String.ofList text).isValidUTF8
  unfold file Storage.read
  dsimp only
  rw [hs]
  exact congrArg Except.ok String.toList_ofList

theorem loadMessages_file (text : List Char) :
    Corpus.loadMessages (file text) = Corpus.readLines Corpus.decodeLine 1 (Text.lines text) := by
  rw [Corpus.loadMessages, read_file]
  rfl

theorem loadSeeds_file (text : List Char) :
    Corpus.loadSeeds (file text) = Corpus.readLines Corpus.decodeSeed 1 (Text.lines text) := by
  rw [Corpus.loadSeeds, read_file]
  rfl

theorem readLines_eq_mapM (value : Nat → List Char → Except CorpusError α) (i : Nat)
    (ls : List (List Char)) : Corpus.readLines value i ls =
      ((ls.zipIdx i).filter fun e => filled e.1).mapM fun e => value e.2 e.1 := by
  induction ls generalizing i with
  | nil => rfl
  | cons line ls ih =>
    rw [Corpus.readLines, List.zipIdx_cons, ih]
    by_cases hb : (Text.trim line).isEmpty = true
    · rw [if_pos hb, List.filter_cons_of_neg (by simp [filled, hb])]
    · rw [if_neg hb, List.filter_cons_of_pos (by simp [filled, hb]), List.mapM_cons]
      cases value i line with
      | error e => rfl
      | ok x =>
        cases ((ls.zipIdx (i + 1)).filter fun e => filled e.1).mapM fun e => value e.2 e.1 with
        | error e => rfl
        | ok xs => rfl

theorem mapM_eq_error {β γ ε : Type} {f : β → Except ε γ} {xs : List β} {e : ε} :
    xs.mapM f = .error e ↔ ∃ before x after, xs = before ++ x :: after ∧
      (∀ y ∈ before, ∃ z, f y = .ok z) ∧ f x = .error e := by
  induction xs with
  | nil =>
    refine iff_of_false nofun ?_
    rintro ⟨before, x, after, he, -⟩
    exact List.append_ne_nil_of_right_ne_nil before (List.cons_ne_nil x after) he.symm
  | cons x xs ih =>
    rw [List.mapM_cons]
    cases hx : f x with
    | error e' =>
      constructor
      · intro h
        cases h
        exact ⟨[], x, xs, rfl, nofun, hx⟩
      · rintro ⟨before, y, after, he, hb, hy⟩
        cases before with
        | nil =>
          cases he
          cases hx.symm.trans hy
          rfl
        | cons w before =>
          cases he
          obtain ⟨z, hz⟩ := hb x List.mem_cons_self
          cases hx.symm.trans hz
    | ok z =>
      have hr : (do let zs ← xs.mapM f; pure (z :: zs)) = .error e ↔ xs.mapM f = .error e := by
        cases xs.mapM f with
        | error e' => exact ⟨fun h => congrArg _ (Except.error.inj h),
            fun h => congrArg _ (Except.error.inj h)⟩
        | ok zs => exact iff_of_false nofun nofun
      refine hr.trans (ih.trans ⟨?_, ?_⟩)
      · rintro ⟨before, y, after, rfl, hb, hy⟩
        exact ⟨x :: before, y, after, rfl, List.forall_mem_cons.mpr ⟨⟨z, hx⟩, hb⟩, hy⟩
      · rintro ⟨before, y, after, he, hb, hy⟩
        cases before with
        | nil =>
          cases he
          cases hx.symm.trans hy
        | cons w before =>
          cases he
          exact ⟨before, y, after, rfl, (List.forall_mem_cons.mp hb).2, hy⟩

theorem exists_of_forall₂ {β γ : Type} {R : β → γ → Prop} {xs : List β} {ys : List γ}
    (h : List.Forall₂ R xs ys) : ∀ x ∈ xs, ∃ y, R x y := by
  induction h with
  | nil => nofun
  | cons hxy _ ih => exact List.forall_mem_cons.mpr ⟨⟨_, hxy⟩, ih⟩

theorem reads_lines
    (hn : ∀ i line error, value i line = .error error → line? error = some i) (text : List Char) :
    Reads value text (Corpus.readLines value 1 (Text.lines text)) := by
  rw [readLines_eq_mapM]
  refine ⟨⟨?_, ?_⟩, fun xs => Scenarios.mapM_eq_ok, ?_, hn⟩
  · rintro ⟨xs, hxs⟩
    exact exists_of_forall₂ (Scenarios.mapM_eq_ok.mp hxs)
  · intro h
    obtain ⟨xs, hxs⟩ := Scenarios.exists_forall₂ h
    exact ⟨xs, Scenarios.mapM_eq_ok.mpr hxs⟩
  · intro error
    rw [mapM_eq_error]
    exact exists_congr fun before => Prod.exists

end Reading

section Kept

def Solid (line : List Char) : Prop := line ≠ [] ∧ ∀ c ∈ line, Text.isBlank c = false

variable {spell : α → List Char} {xs : List α}

theorem readLines_kept (hs : ∀ x ∈ xs, Solid (spell x))
    (hv : ∀ x ∈ xs, ∀ i, value i (spell x) = .ok x) (i : Nat) :
    Corpus.readLines value i (xs.map spell) = .ok xs := by
  induction xs generalizing i with
  | nil => rfl
  | cons x xs ih =>
    obtain ⟨⟨hne, hx⟩, hs⟩ := List.forall_mem_cons.mp hs
    obtain ⟨hvx, hv⟩ := List.forall_mem_cons.mp hv
    have hf : ¬(Text.trim (spell x)).isEmpty = true := by
      rw [trim_of_filled hx, List.isEmpty_iff]
      exact hne
    rw [List.map_cons, Corpus.readLines, if_neg hf, hvx, ih hs hv]

theorem lines_solid (hs : ∀ x ∈ xs, Solid (spell x)) :
    Text.lines (Text.unlines (xs.map spell)) = xs.map spell := by
  apply lines_unlines
  intro line hl
  obtain ⟨x, hx, rfl⟩ := List.mem_map.mp hl
  have hb := (hs x hx).2
  exact ⟨fun hc => Bool.false_ne_true (hb _ hc).symm, fun hc => Bool.false_ne_true (hb _ hc).symm⟩

end Kept

section Messages

theorem decodeLine_eq_ok {m : Message} :
    Corpus.decodeLine i line = .ok m ↔ Corpus.decodeMessage line = .ok m := by
  unfold Corpus.decodeMessage Corpus.decodeLine
  cases Base64.decode (Bytes.utf8 (String.ofList (Text.trim line))) with
  | error reason => exact iff_of_false nofun nofun
  | ok bytes =>
    dsimp only
    cases Message.codec.read bytes with
    | error reason => exact iff_of_false nofun nofun
    | ok m' => exact Iff.rfl

theorem numbered_decodeLine {error : CorpusError} (h : Corpus.decodeLine i line = .error error) :
    line? error = some i := by
  unfold Corpus.decodeLine at h
  split at h
  · cases h
    rfl
  · split at h
    · cases h
      rfl
    · cases h

theorem message_line {m : Message} :
    Corpus.decodeLine i line = .ok m ↔ ShortMessage m ∧
      Text.trim line = Corpus.encodeMessage m := by
  rw [decodeLine_eq_ok]
  constructor
  · intro h
    obtain ⟨hm, he⟩ := encodeMessage_of_decodeMessage h
    exact ⟨hm, he.symm⟩
  · rintro ⟨hm, he⟩
    have hr := decodeMessage_encodeMessage hm
    have ht : Text.trim line = Text.trim (Corpus.encodeMessage m) :=
      he.trans (encodeMessage_of_decodeMessage hr).2
    unfold Corpus.decodeMessage Corpus.decodeLine at hr ⊢
    rw [ht]
    exact hr

theorem encode_ne_nil (m : Message) : Message.codec.encode m ≠ [] := by
  cases m <;> exact List.cons_ne_nil _ _

theorem solid_encodeMessage {m : Message} (hm : ShortMessage m) :
    Solid (Corpus.encodeMessage m) := by
  rw [encodeMessage_of_short hm]
  refine ⟨fun h => encode_ne_nil m ?_, filled_chars (visibleByte_encode _)⟩
  have he : Base64.encode (Message.codec.encode m) = [] := List.map_eq_nil_iff.mp h
  have hd := Sextets.decode_encode (Message.codec.encode m)
  rw [he] at hd
  exact (Except.ok.inj hd).symm

end Messages

section Seeds

theorem le_ofDigitChars (cs : List Char) (n : Nat) : n ≤ Nat.ofDigitChars 10 cs n := by
  rw [Nat.ofDigitChars_eq_ofDigitChars_zero]
  exact Nat.le_add_right_of_le (Nat.le_mul_of_pos_left n (Nat.pow_pos (by decide)))

theorem decimalDigits_eq_ok (hn : n < limit) :
    Text.decimalDigits limit n cs = .ok m ↔
      (∀ c ∈ cs, c.isDigit = true) ∧ Nat.ofDigitChars 10 cs n = m ∧ m < limit := by
  induction cs generalizing n with
  | nil =>
    constructor
    · intro h
      cases h
      exact ⟨nofun, rfl, hn⟩
    · rintro ⟨-, rfl, -⟩
      rfl
  | cons c cs ih =>
    have hd : ('0' ≤ c ∧ c ≤ '9') ↔ c.isDigit = true := by
      simp [Char.isDigit, Char.le_def]
    rw [Text.decimalDigits, List.forall_mem_cons, Nat.ofDigitChars_cons]
    by_cases hc : c.isDigit = true
    · rw [if_pos (hd.mpr hc)]
      by_cases hl : 10 * n + (c.toNat - 48) < limit
      · rw [if_pos hl, ih hl, and_iff_right hc]
        rfl
      · rw [if_neg hl]
        refine iff_of_false nofun ?_
        rintro ⟨-, rfl, hm⟩
        exact hl (Nat.lt_of_le_of_lt (le_ofDigitChars cs _) hm)
    · rw [if_neg (mt hd.mp hc)]
      exact iff_of_false nofun fun h => hc h.1.1

theorem not_numeral_plus : ¬Numeral ('+' :: ds) n :=
  fun h => absurd (h.2.1 '+' List.mem_cons_self) (by decide)

theorem decimal_eq_ok (hl : 0 < limit) :
    Text.decimal limit text = .ok n ↔ n < limit ∧ Spells text n := by
  have hd : ∀ ds, ds ≠ [] → (Text.decimalDigits limit 0 ds = .ok n ↔ n < limit ∧ Numeral ds n) := by
    intro ds hne
    rw [decimalDigits_eq_ok hl, Numeral, and_iff_right hne, ← and_assoc, and_comm]
  unfold Text.decimal
  split
  · refine iff_of_false nofun ?_
    rintro ⟨-, h | ⟨ds, h, -⟩⟩
    · exact h.1 rfl
    · cases h
  · refine iff_of_false nofun ?_
    rintro ⟨-, h | ⟨ds, h, hds⟩⟩
    · exact not_numeral_plus h
    · cases h
      exact hds.1 rfl
  · rename_i cs hcs
    rw [hd cs hcs]
    refine and_congr_right' ⟨fun h => .inr ⟨cs, rfl, h⟩, ?_⟩
    rintro (h | ⟨ds, h, hds⟩)
    · exact (not_numeral_plus h).elim
    · cases h
      exact hds
  · rename_i hne _ hplus
    rw [hd text hne]
    refine and_congr_right' ⟨.inl, ?_⟩
    rintro (h | ⟨ds, h, -⟩)
    · exact h
    · exact (hplus ds h).elim

theorem numbered_decodeSeed {error : CorpusError} (h : Corpus.decodeSeed i line = .error error) :
    line? error = some i := by
  unfold Corpus.decodeSeed at h
  split at h
  · cases h
    rfl
  · cases h

theorem seed_line :
    Corpus.decodeSeed i line = .ok n ↔ n < 2 ^ 64 ∧ Spells (Text.trim line) n := by
  have hl : 0 < 0x10000000000000000 := by decide
  refine Iff.trans ?_ (decimal_eq_ok hl)
  unfold Corpus.decodeSeed
  cases Text.decimal 0x10000000000000000 (Text.trim line) with
  | error reason => exact iff_of_false nofun nofun
  | ok m => exact ⟨fun h => congrArg _ (Except.ok.inj h), fun h => congrArg _ (Except.ok.inj h)⟩

theorem numeral_toString (n : Nat) : Numeral (toString n).toList n := by
  have ht : (toString n).toList = Nat.toDigits 10 n := Nat.toList_repr
  rw [ht]
  exact ⟨Nat.toDigits_ne_nil, fun c => Nat.isDigit_of_mem_toDigits (by decide) (by decide),
    Nat.ofDigitChars_ten_toDigits⟩

theorem not_blank_of_isDigit {c : Char} (h : c.isDigit = true) : Text.isBlank c = false := by
  have hc : 48 ≤ c.toNat ∧ c.toNat ≤ 57 := by
    simpa [Char.isDigit, UInt32.le_iff_toNat_le] using h
  unfold Text.isBlank
  grind

theorem solid_toString (n : Nat) : Solid (toString n).toList := by
  obtain ⟨hne, hd, -⟩ := numeral_toString n
  exact ⟨hne, fun c hc => not_blank_of_isDigit (hd c hc)⟩

end Seeds

theorem files_faithful : Faithful where
  messagesKept ms hms old := by
    have hs : ∀ m ∈ ms, Solid (Corpus.encodeMessage m) := fun m hm => solid_encodeMessage (hms m hm)
    refine ⟨_, rfl, (loadMessages_file _).trans ?_⟩
    rw [lines_solid hs]
    refine readLines_kept hs (fun m hm i => ?_) 1
    exact decodeLine_eq_ok.mpr (decodeMessage_encodeMessage (hms m hm))
  seedsKept ns hns old := by
    have hs : ∀ n ∈ ns, Solid (toString n).toList := fun n _ => solid_toString n
    refine ⟨_, rfl, (loadSeeds_file _).trans ?_⟩
    rw [lines_solid hs]
    refine readLines_kept hs (fun n hn i => seed_line.mpr ⟨hns n hn, ?_⟩) 1
    rw [trim_of_filled (solid_toString n).2]
    exact .inl (numeral_toString n)
  messagesRead text := by
    rw [loadMessages_file]
    exact reads_lines (fun _ _ _ => numbered_decodeLine) text
  seedsRead text := by
    rw [loadSeeds_file]
    exact reads_lines (fun _ _ _ => numbered_decodeSeed) text
  messageLine _ _ _ := message_line
  seedLine _ _ _ := seed_line
  split text := by
    obtain ⟨he, hended, hrest⟩ := splitFeeds_spec text
    refine ⟨_, _, he, hended, hrest, ?_⟩
    simp only [Text.lines, List.isEmpty_iff]

def sampleVote : Vote := ⟨.ofNat 3, Block.genesisHash, .ofNat 2, .fill 7⟩

def mixed : List Char := ['\n', ' ', '7', ' ', '\r', '\n', '+', '0', 'x', '\n', '8']

theorem files_faithful_mixed :
    (∃ s, Corpus.saveMessages [.vote sampleVote, .propose ⟨.genesis⟩] (.directory none) = .ok s ∧
        Corpus.loadMessages s = .ok [.vote sampleVote, .propose ⟨.genesis⟩]) ∧
      (∃ s, Corpus.saveSeeds [2 ^ 64 - 1, 0] (.directory none) = .ok s ∧
        Corpus.loadSeeds s = .ok [2 ^ 64 - 1, 0]) ∧
      Corpus.loadSeeds (file mixed) = .error (.invalidSeed 3 .invalidDigit) := by
  have hb : ShortMessage (.propose ⟨.genesis⟩) := ⟨(by decide : 0 < 0x100000000), nofun⟩
  have hms : ∀ m ∈ [.vote sampleVote, .propose ⟨.genesis⟩], ShortMessage m :=
    List.forall_mem_cons.mpr ⟨trivial, List.forall_mem_singleton.mpr hb⟩
  have hl : ∀ e ∈ [([' ', '7', ' '], 2)], ∃ n, Corpus.decodeSeed e.2 e.1 = .ok n :=
    List.forall_mem_singleton.mpr ⟨7, rfl⟩
  exact ⟨files_faithful.messagesKept _ hms none,
    files_faithful.seedsKept _ (by decide) none,
    ((files_faithful.seedsRead mixed).first _).mpr
      ⟨[([' ', '7', ' '], 2)], ['+', '0', 'x'], 3, [(['8'], 4)], by decide, hl, rfl⟩⟩

end Equivocation.Proofs.Files
