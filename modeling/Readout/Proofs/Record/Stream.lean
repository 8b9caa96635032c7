import Mathlib.Algebra.Group.Nat.Defs
import Mathlib.Data.List.Infix
import Readout.Record.Replay

/-!
# Streams of records

A stream is read back as the records that it was written from. Bytes behind the last whole record
either break off inside of its first word, which reading takes for the end of the stream, or
inside of a later part of a record, which is an error (`decode_spec`). So a stream is accepted
exactly if fewer than four bytes follow its whole records (`Graph.replay_ok_iff`).
-/
namespace Readout

namespace Bytes

@[simp] theorem length_encode (count n : Nat) : (encode count n).length = count := by
  induction count generalizing n with
  | zero => rfl
  | succ count ih => simp [encode, ih]

theorem decode_encode (count n : Nat) : decode (encode count n) = n % 256 ^ count := by
  induction count generalizing n with
  | zero => simp [encode, decode, Nat.mod_one]
  | succ count ih =>
    have hbyte : (UInt8.ofNat n).toNat = n % 256 := UInt8.toNat_ofNat'
    rw [encode, decode, ih, hbyte, Nat.pow_succ, Nat.mul_comm (256 ^ count), Nat.mod_mul]

theorem decode_lt (bs : List UInt8) : decode bs < 256 ^ bs.length := by
  induction bs with
  | nil => exact Nat.zero_lt_one
  | cons b bs ih =>
    have hb := b.toNat_lt
    rw [decode, List.length_cons, Nat.pow_succ]
    omega

theorem encode_decode (bs : List UInt8) : encode bs.length (decode bs) = bs := by
  induction bs with
  | nil => rfl
  | cons b bs ih =>
    have hb := b.toNat_lt
    have hmod : UInt8.ofNat (b.toNat + 256 * decode bs) = b := by
      apply UInt8.toNat_inj.1
      rw [UInt8.toNat_ofNat']
      omega
    have hdiv : (b.toNat + 256 * decode bs) / 256 = decode bs := by omega
    rw [List.length_cons, decode, encode, hmod, hdiv, ih]

end Bytes

namespace Record

/-- The word that counts the words of a record can hold their number. -/
def Whole (r : Record) : Prop := r.words.length < Word.size 32

instance (r : Record) : Decidable r.Whole :=
  inferInstanceAs (Decidable (r.words.length < Word.size 32))

section Words

variable {w : UInt32} {bytes rest : List UInt8}

@[simp] theorem length_encodeWord (w : UInt32) : (encodeWord w).length = 4 :=
  Bytes.length_encode 4 _

theorem word?_encodeWord (w : UInt32) (rest : List UInt8) :
    word? (encodeWord w ++ rest) = some (w, rest) := by
  have hread : word? (encodeWord w ++ rest) =
      some (UInt32.ofNat (Bytes.decode (Bytes.encode 4 w.toNat)), rest) := rfl
  have hw : w.toNat % 256 ^ 4 = w.toNat := Nat.mod_eq_of_lt w.toNat_lt
  rw [hread, Bytes.decode_encode, hw, UInt32.ofNat_toNat]

theorem encodeWord_decode (bs : List UInt8) (h : bs.length = 4) :
    encodeWord (UInt32.ofNat (Bytes.decode bs)) = bs := by
  have hback := Bytes.encode_decode bs
  have hlt : Bytes.decode bs < UInt32.size := by
    have hdecode := Bytes.decode_lt bs
    rw [h] at hdecode
    exact hdecode
  rw [encodeWord, UInt32.toNat_ofNat_of_lt' hlt, ← h, hback]

theorem word?_eq_some_iff : word? bytes = some (w, rest) ↔ bytes = encodeWord w ++ rest := by
  constructor
  · intro h
    match bytes, h with
    | a :: b :: c :: d :: rest', h =>
      obtain ⟨rfl, rfl⟩ := Prod.mk.inj (Option.some.inj h)
      rw [encodeWord_decode [a, b, c, d] rfl]
      rfl
  · rintro rfl
    exact word?_encodeWord w rest

theorem word?_eq_none_iff : word? bytes = none ↔ bytes.length < 4 := by
  match bytes with
  | [] | [_] | [_, _] | [_, _, _] => simp [word?]
  | _ :: _ :: _ :: _ :: _ => simp [word?]

theorem exists_prefix_encodeWord (h : bytes.length < 4) : ∃ w, bytes <+: encodeWord w := by
  refine ⟨UInt32.ofNat (Bytes.decode (bytes ++ List.replicate (4 - bytes.length) 0)), ?_⟩
  rw [encodeWord_decode _ (by simp; omega)]
  exact List.prefix_append _ _

theorem readWords_encode (ws : List UInt32) (rest : List UInt8) :
    readWords ws.length (ws.flatMap encodeWord ++ rest) = (ws, true, rest) := by
  induction ws with
  | nil => rfl
  | cons w ws ih =>
    rw [List.length_cons, List.flatMap_cons, List.append_assoc, readWords, word?_encodeWord]
    simp [ih]

theorem readWords_spec (n : Nat) (bytes : List UInt8) :
    ∃ ws whole rest, readWords n bytes = (ws, whole, rest) ∧
      bytes = ws.flatMap encodeWord ++ rest ∧
      if whole = true then ws.length = n else ws.length < n ∧ rest.length < 4 := by
  induction n generalizing bytes with
  | zero => exact ⟨[], true, bytes, rfl, rfl, rfl⟩
  | succ n ih =>
    rw [readWords]
    cases hw : word? bytes with
    | none => exact ⟨[], false, bytes, rfl, rfl, by simp [word?_eq_none_iff.1 hw]⟩
    | some p =>
      obtain ⟨w, rest⟩ := p
      obtain ⟨ws, whole, rest', hread, hrest, hlen⟩ := ih rest
      refine ⟨w :: ws, whole, rest', by simp [hread], ?_, ?_⟩
      · rw [word?_eq_some_iff.1 hw, hrest, List.flatMap_cons, List.append_assoc]
      · cases whole <;> simp at hlen ⊢ <;> omega

end Words

/-- The part of a record that byte `n` belongs to, from the second word on. -/
def partAt (n : Nat) : RecordPart :=
  if n < 8 then .moduleIndex else if n < 12 then .wordCount else .dataWord

/-- The beginning of a whole record, at least its first word, that breaks off inside of a part. -/
def Torn (tail : List UInt8) (part : RecordPart) : Prop :=
  ∃ r : Record, r.Whole ∧ tail <+: r.encode ∧ 4 ≤ tail.length ∧ tail.length < r.encode.length ∧
    part = partAt tail.length

/-- What may follow the whole records of a stream that is read to its end, or to an error. -/
def Remains (tail : List UInt8) : Option RecordPart → Prop
  | none => tail.length < 4
  | some part => Torn tail part

section Reading

variable {r : Record} {bytes : List UInt8}

theorem encode_eq (h : r.Whole) (rest : List UInt8) : r.encode ++ rest =
    encodeWord r.event ++ (encodeWord r.moduleIndex ++
      (encodeWord (UInt32.ofNat r.words.length) ++ (r.words.flatMap encodeWord ++ rest))) := by
  have hcount : (UInt32.ofNat r.words.length).toNat = r.words.length :=
    UInt32.toNat_ofNat_of_lt' h
  simp only [encode, encodeWord, hcount, List.append_assoc]

theorem length_encode (r : Record) : r.encode.length = 12 + 4 * r.words.length := by
  simp [encode]
  omega

theorem read_encode (h : r.Whole) (buffer : List UInt32) (rest : List UInt8) :
    read buffer (r.encode ++ rest) = (.record r.event r.moduleIndex, r.words, rest) := by
  have hcount : (UInt32.ofNat r.words.length).toNat = r.words.length :=
    UInt32.toNat_ofNat_of_lt' h
  rw [encode_eq h, read, word?_encodeWord]
  simp [word?_encodeWord, hcount, readWords_encode]

theorem torn_moduleIndex (event : UInt32) {tail : List UInt8} (h : tail.length < 4) :
    Torn (encodeWord event ++ tail) .moduleIndex := by
  obtain ⟨w, hw⟩ := exists_prefix_encodeWord h
  have hwhole : Whole ⟨event, w, []⟩ := Nat.two_pow_pos 32
  refine ⟨⟨event, w, []⟩, hwhole, ?_, by simp, ?_, ?_⟩
  · rw [← List.append_nil (encode _), encode_eq hwhole]
    exact (List.prefix_append_right_inj _).2 (hw.trans (List.prefix_append _ _))
  · rw [length_encode]
    simp
    omega
  · rw [partAt, if_pos (by simp; omega)]

theorem torn_wordCount (event moduleIndex : UInt32) {tail : List UInt8} (h : tail.length < 4) :
    Torn (encodeWord event ++ (encodeWord moduleIndex ++ tail)) .wordCount := by
  obtain ⟨w, hw⟩ := exists_prefix_encodeWord h
  have hwhole : Whole ⟨event, moduleIndex, List.replicate w.toNat 0⟩ := by
    simpa [Whole, Word.size] using w.toNat_lt
  refine ⟨⟨event, moduleIndex, List.replicate w.toNat 0⟩, hwhole, ?_, by simp, ?_, ?_⟩
  · rw [← List.append_nil (encode _), encode_eq hwhole, List.length_replicate,
      UInt32.ofNat_toNat]
    refine (List.prefix_append_right_inj _).2 ((List.prefix_append_right_inj _).2 ?_)
    exact hw.trans (List.prefix_append _ _)
  · rw [length_encode]
    simp
    omega
  · rw [partAt, if_neg (by simp; omega), if_pos (by simp; omega)]

theorem torn_dataWord (event moduleIndex count : UInt32) {ws : List UInt32} {tail : List UInt8}
    (hws : ws.length < count.toNat) (h : tail.length < 4) :
    Torn (encodeWord event ++ (encodeWord moduleIndex ++ (encodeWord count ++
      (ws.flatMap encodeWord ++ tail)))) .dataWord := by
  obtain ⟨w, hw⟩ := exists_prefix_encodeWord h
  -- the words that are there, the one that breaks off, and as many more as were announced
  obtain ⟨words, hwords⟩ : ∃ words,
      words = ws ++ w :: List.replicate (count.toNat - ws.length - 1) 0 := ⟨_, rfl⟩
  have hlength : words.length = count.toNat := by
    rw [hwords]
    simp
    omega
  have hwhole : Whole ⟨event, moduleIndex, words⟩ := by
    simpa [Whole, Word.size, hlength] using count.toNat_lt
  refine ⟨⟨event, moduleIndex, words⟩, hwhole, ?_, by simp, ?_, ?_⟩
  · rw [← List.append_nil (encode _), encode_eq hwhole, hlength, UInt32.ofNat_toNat, hwords,
      List.flatMap_append, List.flatMap_cons]
    simp only [List.append_assoc, List.prefix_append_right_inj]
    exact hw.trans (List.prefix_append _ _)
  · rw [length_encode]
    simp [hlength]
    omega
  · rw [partAt, if_neg (by simp; omega), if_neg (by simp; omega)]

/-- One read finds the end of the stream, a record that breaks off, or a whole record. -/
theorem read_cases (buffer : List UInt32) (bytes : List UInt8) :
    (bytes.length < 4 ∧ read buffer bytes = (.finished, buffer, bytes)) ∨
    (∃ part buffer' rest, Torn bytes part ∧ read buffer bytes = (.truncated part, buffer', rest)) ∨
    ∃ r rest, Whole r ∧ bytes = r.encode ++ rest ∧
      read buffer bytes = (.record r.event r.moduleIndex, r.words, rest) := by
  cases he : word? bytes with
  | none => exact .inl ⟨word?_eq_none_iff.1 he, by simp [read, he]⟩
  | some p =>
    obtain ⟨event, bytes₁⟩ := p
    obtain rfl := word?_eq_some_iff.1 he
    right
    cases hm : word? bytes₁ with
    | none =>
      exact .inl ⟨.moduleIndex, buffer, bytes₁, torn_moduleIndex event (word?_eq_none_iff.1 hm),
        by simp [read, he, hm]⟩
    | some p =>
      obtain ⟨moduleIndex, bytes₂⟩ := p
      obtain rfl := word?_eq_some_iff.1 hm
      cases hc : word? bytes₂ with
      | none =>
        exact .inl ⟨.wordCount, buffer, bytes₂,
          torn_wordCount event moduleIndex (word?_eq_none_iff.1 hc), by simp [read, he, hm, hc]⟩
      | some p =>
        obtain ⟨count, bytes₃⟩ := p
        obtain rfl := word?_eq_some_iff.1 hc
        obtain ⟨ws, whole, rest, hread, hbytes, hws⟩ := readWords_spec count.toNat bytes₃
        subst hbytes
        cases whole with
        | false =>
          simp only [Bool.false_eq_true, if_false] at hws
          exact .inl ⟨.dataWord, ws, rest,
            torn_dataWord event moduleIndex count hws.1 hws.2, by simp [read, he, hm, hc, hread]⟩
        | true =>
          simp only [if_true] at hws
          have hwhole : Whole ⟨event, moduleIndex, ws⟩ := by
            simpa [Whole, Word.size, hws] using count.toNat_lt
          refine .inr ⟨⟨event, moduleIndex, ws⟩, rest, hwhole, ?_, ?_⟩
          · rw [encode_eq hwhole, hws, UInt32.ofNat_toNat]
          · simp [read, he, hm, hc, hread]

end Reading

section Streams

theorem encodeAll_cons (r : Record) (rs : List Record) (tail : List UInt8) :
    encodeAll (r :: rs) ++ tail = r.encode ++ (encodeAll rs ++ tail) := by
  rw [encodeAll, List.flatMap_cons, List.append_assoc]
  rfl

theorem four_dvd_length_encodeAll (rs : List Record) : 4 ∣ (encodeAll rs).length := by
  induction rs with
  | nil => exact ⟨0, rfl⟩
  | cons r rs ih =>
    rw [← List.append_nil (encodeAll (r :: rs)), encodeAll_cons, List.append_nil,
      List.length_append, length_encode]
    omega

theorem readAll_spec (fuel : Nat) (buffer : List UInt32) (bytes : List UInt8)
    (h : bytes.length < fuel) :
    ∃ rs part buffer' tail, readAll fuel buffer bytes = (rs, part, buffer') ∧
      (∀ r ∈ rs, Whole r) ∧ bytes = encodeAll rs ++ tail ∧ Remains tail part := by
  induction fuel generalizing buffer bytes with
  | zero => omega
  | succ fuel ih =>
    rcases read_cases buffer bytes with ⟨hend, hread⟩ | ⟨part, buffer', rest, htorn, hread⟩ |
      ⟨r, rest, hr, hbytes, hread⟩
    · exact ⟨[], none, buffer, bytes, by simp [readAll, hread], by simp, rfl, hend⟩
    · exact ⟨[], some part, buffer', bytes, by simp [readAll, hread], by simp, rfl, htorn⟩
    · have hrest : rest.length < fuel := by
        rw [hbytes, List.length_append, length_encode] at h
        omega
      obtain ⟨rs, part, buffer', tail, hreadAll, hrs, hrest, htail⟩ := ih r.words rest hrest
      refine ⟨r :: rs, part, buffer', tail, by simp [readAll, hread, hreadAll], ?_, ?_, htail⟩
      · simpa using ⟨hr, hrs⟩
      · rw [hbytes, hrest, encodeAll_cons]

/-- Reading takes a stream apart into whole records and what is left over behind them. -/
theorem decode_spec (bytes : List UInt8) :
    ∃ rs part buffer tail, decode bytes = (rs, part, buffer) ∧
      (∀ r ∈ rs, Whole r) ∧ bytes = encodeAll rs ++ tail ∧ Remains tail part :=
  readAll_spec (bytes.length + 1) [] bytes (Nat.lt_succ_self _)

theorem readAll_encodeAll {rs : List Record} (hrs : ∀ r ∈ rs, Whole r) {tail : List UInt8}
    (htail : tail.length < 4) (fuel : Nat) (buffer : List UInt32)
    (h : (encodeAll rs ++ tail).length < fuel) :
    ∃ buffer', readAll fuel buffer (encodeAll rs ++ tail) = (rs, none, buffer') := by
  induction rs generalizing fuel buffer with
  | nil =>
    obtain ⟨fuel, rfl⟩ := Nat.exists_eq_add_of_lt h
    have hread : word? tail = none := word?_eq_none_iff.2 htail
    exact ⟨buffer, by simp [readAll, read, encodeAll, hread]⟩
  | cons r rs ih =>
    rw [encodeAll_cons] at h ⊢
    cases fuel with
    | zero => omega
    | succ fuel =>
      have hr : Whole r := hrs r List.mem_cons_self
      have hlt : (encodeAll rs ++ tail).length < fuel := by
        rw [List.length_append, length_encode] at h
        omega
      obtain ⟨buffer', hrest⟩ := ih (fun q hq => hrs q (List.mem_cons_of_mem r hq)) fuel r.words hlt
      exact ⟨buffer', by simp [readAll, read_encode hr, hrest]⟩

theorem decode_encodeAll {rs : List Record} (hrs : ∀ r ∈ rs, Whole r) {tail : List UInt8}
    (htail : tail.length < 4) :
    ∃ buffer, decode (encodeAll rs ++ tail) = (rs, none, buffer) :=
  readAll_encodeAll hrs htail _ [] (Nat.lt_succ_self _)

end Streams

end Record

section Acceptance

variable (g : Graph) (arrivals : List Nat) (bytes : List UInt8)

theorem Graph.replay_outcome {bytes : List UInt8} {rs : List Record} {part : Option RecordPart}
    {buffer : List UInt32} (h : Record.decode bytes = (rs, part, buffer)) :
    match part with
    | none => ∃ stats, (g.replay arrivals bytes).1 = .ok stats
    | some part => (g.replay arrivals bytes).1 = .error (.truncated part) := by
  cases part <;> simp [Graph.replay, Replay.plan, h, Except.mapError]

theorem Graph.replay_ok_iff : (∃ stats, (g.replay arrivals bytes).1 = .ok stats) ↔
    (Record.decode bytes).2.1 = none := by
  obtain ⟨rs, part, buffer, h⟩ : ∃ rs part buffer, Record.decode bytes = (rs, part, buffer) :=
    ⟨_, _, _, rfl⟩
  have houtcome := g.replay_outcome arrivals h
  rw [h]
  cases part with
  | none => exact ⟨fun _ => rfl, fun _ => houtcome⟩
  | some part =>
    constructor
    · rintro ⟨stats, hstats⟩
      rw [houtcome] at hstats
      cases hstats
    · nofun

theorem Record.decode_eq_none_iff : (decode bytes).2.1 = none ↔
    ∃ rs tail, (∀ r ∈ rs, Whole r) ∧ tail.length < 4 ∧ bytes = encodeAll rs ++ tail := by
  constructor
  · intro hnone
    obtain ⟨rs, part, buffer, tail, h, hrs, hbytes, htail⟩ := decode_spec bytes
    rw [h] at hnone
    cases hnone
    exact ⟨rs, tail, hrs, htail, hbytes⟩
  · rintro ⟨rs, tail, hrs, htail, rfl⟩
    obtain ⟨buffer, h⟩ := decode_encodeAll hrs htail
    rw [h]

theorem Record.eq_nil_of_four_dvd {rs : List Record} {tail : List UInt8} (htail : tail.length < 4)
    (h : 4 ∣ (encodeAll rs ++ tail).length) : tail = [] := by
  have hall := four_dvd_length_encodeAll rs
  rw [List.length_append] at h
  exact List.eq_nil_of_length_eq_zero (by omega)

/-- A stream is accepted exactly if it consists of whole records and up to three bytes more, so
that one of whole words is accepted exactly if it is a concatenation of records. In either case
the records that were read give back the stream in front of what is left over, and a stream that
is not accepted is answered with the part of the record in which it breaks off. -/
theorem Graph.replay_accepts (g : Graph) (arrivals : List Nat) (bytes : List UInt8) :
    ((∃ stats, (g.replay arrivals bytes).1 = .ok stats) ↔
      ∃ rs tail, (∀ r ∈ rs, Record.Whole r) ∧ tail.length < 4 ∧
        bytes = Record.encodeAll rs ++ tail) ∧
    ((∃ stats, (g.replay arrivals bytes).1 = .ok stats) ∧ 4 ∣ bytes.length ↔
      ∃ rs, (∀ r ∈ rs, Record.Whole r) ∧ bytes = Record.encodeAll rs) ∧
    ∃ rs part buffer tail, Record.decode bytes = (rs, part, buffer) ∧
      (∀ r ∈ rs, Record.Whole r) ∧ bytes = Record.encodeAll rs ++ tail ∧
      match part with
      | none => tail.length < 4 ∧ ∃ stats, (g.replay arrivals bytes).1 = .ok stats
      | some part => Record.Torn tail part ∧
          (g.replay arrivals bytes).1 = .error (.truncated part) := by
  have haccepted := (g.replay_ok_iff arrivals bytes).trans (Record.decode_eq_none_iff bytes)
  refine ⟨haccepted, ?_, ?_⟩
  · rw [haccepted]
    constructor
    · rintro ⟨⟨rs, tail, hrs, htail, rfl⟩, hwords⟩
      obtain rfl := Record.eq_nil_of_four_dvd htail hwords
      exact ⟨rs, hrs, List.append_nil _⟩
    · rintro ⟨rs, hrs, rfl⟩
      exact ⟨⟨rs, [], hrs, by decide, (List.append_nil _).symm⟩,
        Record.four_dvd_length_encodeAll rs⟩
  · obtain ⟨rs, part, buffer, tail, h, hrs, hbytes, htail⟩ := Record.decode_spec bytes
    refine ⟨rs, part, buffer, tail, h, hrs, hbytes, ?_⟩
    have houtcome := g.replay_outcome arrivals h
    cases part with
    | none => exact ⟨htail, houtcome⟩
    | some part => exact ⟨htail, houtcome⟩

/-- A byte that begins a record behind a whole one is passed over without an error. -/
theorem Graph.replay_accepts_leftover :
    (∀ g : Graph, ∃ stats, (g.replay [] (Record.encode ⟨0, 0, [5, 65]⟩ ++ [1])).1 = .ok stats) ∧
    ¬ ∃ rs, (∀ r ∈ rs, Record.Whole r) ∧
      Record.encode ⟨0, 0, [5, 65]⟩ ++ [1] = Record.encodeAll rs := by
  constructor
  · intro g
    rw [g.replay_ok_iff]
    rfl
  · rintro ⟨rs, -, h⟩
    have hlength := congrArg List.length h
    have hdvd := Record.four_dvd_length_encodeAll rs
    rw [← hlength] at hdvd
    revert hdvd
    decide

end Acceptance

end Readout
