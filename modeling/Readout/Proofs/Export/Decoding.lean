import Readout.Operator.Make
import Readout.Proofs.Record.Stream
import Readout.Proofs.Value.Printed

/-!
# Reading exports back

The bytes of all events of a run stand one behind the other, with nothing in between. A reader that
knows the format and the sizes of the inputs takes them apart again: each part of an event is read
back from whatever bytes it stands in front of (`Reads`), so one event ends where the next one
begins. Values of the full format have a fixed width, those of the sparse format are counted, and
no text of a value holds one of the bytes that end the fields of a line.
-/
namespace Readout

/-- Takes something off the front of the bytes. -/
abbrev Reader := StateT (List UInt8) Option

namespace Reader

/-- A number of so many bytes. -/
def number (count : Nat) : Reader Nat := fun bytes =>
  if bytes.length < count then none
  else some (Bytes.decode (bytes.take count), bytes.drop count)

def value : Reader Value := do return ⟨UInt64.ofNat (← number 8)⟩

def many {α : Type} (read : Reader α) (count : Nat) : Reader (List α) :=
  (List.replicate count ()).mapM fun _ => read

/-- The bytes in front of the next separator, which is taken off with them. -/
def upTo (stop : UInt8) : Reader (List UInt8)
  | [] => none
  | b :: rest =>
    if b = stop then some ([], rest)
    else do
      let (field, rest) ← upTo stop rest
      some (b :: field, rest)

/-- The fields of a line, with commas between them. -/
def line : Nat → Reader (List (List UInt8))
  | 0 => do
    let field ← upTo ExportFormat.newline
    if field = [] then return [] else failure
  | 1 => do return [← upTo ExportFormat.newline]
  | n + 2 => do
    let field ← upTo ExportFormat.comma
    let fields ← line (n + 1)
    return field :: fields

/-- Reads until no bytes are left. Everything that is read takes at least one byte. -/
def all {α : Type} (read : Reader α) : Nat → List UInt8 → Option (List α)
  | _, [] => some []
  | 0, _ :: _ => none
  | fuel + 1, bytes => do
    let (x, rest) ← read bytes
    let xs ← all read fuel rest
    return x :: xs

end Reader

/-- Cuts a list into parts of the given sizes. -/
def cut {α : Type} : List Nat → List α → List (List α)
  | [], _ => []
  | n :: sizes, xs => xs.take n :: cut sizes (xs.drop n)

/-- What an export tells of one input in one event. -/
inductive Content
  | values (vs : List Value)
  | entries (es : List (Nat × Value))
  | texts (ts : List (Option String))
deriving DecidableEq

namespace ExportFormat

/-- All values, or the valid ones with their indices, or the texts of the valid ones. -/
def content (f : ExportFormat) (vs : List Value) : Content :=
  match f with
  | full => .values vs
  | sparse => .entries (vs.zipIdx.filterMap fun (v, i) => if v.isValid then some (i, v) else none)
  | csv => .texts (vs.map fun v => if v.isValid then some v.text else none)

/-- An empty field stands for an invalid value. -/
def textOf (field : List UInt8) : Option (Option String) :=
  if field = [] then some none else (String.fromUTF8? field.toByteArray).map some

/-- The valid values of an input behind their number and their indices. -/
def readEntries : Reader Content := do
  let count ← Reader.number 2
  let indices ← Reader.many (Reader.number 2) count
  let values ← Reader.many Reader.value count
  return .entries (indices.zip values)

/-- One event with inputs of the given sizes. -/
def readEvent (f : ExportFormat) (sizes : List Nat) : Reader (List Content) :=
  match f with
  | full => sizes.mapM fun n => do return .values (← Reader.many Reader.value n)
  | sparse => sizes.mapM fun _ => readEntries
  | csv => do
    let fields ← Reader.line (total sizes)
    let texts ← StateT.lift (fields.mapM textOf)
    return (cut sizes texts).map .texts

/-- What a file tells, event by event, of inputs of the given sizes. -/
def decode (f : ExportFormat) (sizes : List Nat) (bytes : List UInt8) :
    Option (List (List Content)) :=
  Reader.all (f.readEvent sizes) bytes.length bytes

end ExportFormat

/-- From a part of a file this is read, whatever stands behind the part. -/
def Reads {α : Type} (read : Reader α) (bytes : List UInt8) (x : α) : Prop :=
  ∀ rest, read (bytes ++ rest) = some (x, rest)

namespace Reads

variable {α β : Type} {read : Reader α} {bytes bytes' : List UInt8} {x : α} {y : β}

theorem pure (x : α) : Reads (Pure.pure x) [] x := fun _ => rfl

theorem bind {k : α → Reader β} (h : Reads read bytes x) (hk : Reads (k x) bytes' y) :
    Reads (read >>= k) (bytes ++ bytes') y := by
  intro rest
  change (read (bytes ++ bytes' ++ rest)).bind (fun p => k p.1 p.2) = some (y, rest)
  rw [List.append_assoc, h, Option.bind_some, hk]

theorem map {f : α → β} (h : Reads read bytes x) : Reads (do return f (← read)) bytes (f x) := by
  have hall := h.bind (k := fun x => Pure.pure (f x)) (pure (f x))
  rwa [List.append_nil] at hall

theorem lift {o : Option α} (h : o = some x) : Reads (StateT.lift o) [] x := by
  subst h
  exact fun _ => rfl

/-- What is read of each element of a list, one behind the other. -/
theorem mapM {γ : Type} {xs : List γ} {read : γ → Reader α} {encode : γ → List UInt8}
    {told : γ → α} (h : ∀ x ∈ xs, Reads (read x) (encode x) (told x)) :
    Reads (xs.mapM read) (xs.flatMap encode) (xs.map told) := by
  induction xs with
  | nil =>
    rw [List.mapM_nil]
    exact pure []
  | cons x xs ih =>
    obtain ⟨hx, hxs⟩ := List.forall_mem_cons.1 h
    rw [List.mapM_cons, List.flatMap_cons, List.map_cons]
    exact hx.bind (ih hxs).map

theorem number {count n : Nat} (h : n < 256 ^ count) :
    Reads (Reader.number count) (Bytes.encode count n) n := by
  intro rest
  have hlength := Bytes.length_encode count n
  rw [Reader.number, if_neg (by simp), List.take_left' hlength, List.drop_left' hlength,
    Bytes.decode_encode, Nat.mod_eq_of_lt h]

theorem value (v : Value) : Reads Reader.value (Bytes.ofValue v) v := by
  have hv : v.bits.toNat < 256 ^ 8 := v.bits.toNat_lt
  have hback : (⟨UInt64.ofNat v.bits.toNat⟩ : Value) = v := by rw [UInt64.ofNat_toNat]
  have hread := (number hv).map (f := fun n => (⟨UInt64.ofNat n⟩ : Value))
  rwa [hback] at hread

theorem many {γ : Type} {xs : List γ} {encode : γ → List UInt8} {told : γ → α}
    (h : ∀ x ∈ xs, Reads read (encode x) (told x)) :
    Reads (Reader.many read xs.length) (xs.flatMap encode) (xs.map told) := by
  rw [Reader.many, ← List.map_const', List.mapM_map]
  exact mapM h

theorem upTo {field : List UInt8} {stop : UInt8} (h : stop ∉ field) :
    Reads (Reader.upTo stop) (field ++ [stop]) field := by
  induction field with
  | nil =>
    intro rest
    simp [Reader.upTo]
  | cons b field ih =>
    obtain ⟨hb, hfield⟩ := not_or.1 (mt List.mem_cons.2 h)
    intro rest
    have hrest := ih hfield rest
    rw [List.cons_append, List.cons_append, Reader.upTo, if_neg (Ne.symm hb), hrest]
    rfl

/-- Whatever is read of each element, it is read of all of them up to the end. -/
theorem all {γ : Type} {xs : List γ} {encode : γ → List UInt8} {told : γ → α}
    (h : ∀ x ∈ xs, Reads read (encode x) (told x)) (hne : ∀ x ∈ xs, encode x ≠ []) (fuel : Nat)
    (hfuel : (xs.flatMap encode).length ≤ fuel) :
    Reader.all read fuel (xs.flatMap encode) = some (xs.map told) := by
  induction xs generalizing fuel with
  | nil => rw [List.flatMap_nil, Reader.all, List.map_nil]
  | cons x xs ih =>
    obtain ⟨hx, hxs⟩ := List.forall_mem_cons.1 h
    obtain ⟨hnx, hnxs⟩ := List.forall_mem_cons.1 hne
    have hread := hx (xs.flatMap encode)
    rw [List.flatMap_cons] at hfuel ⊢
    cases hb : encode x with
    | nil => exact absurd hb hnx
    | cons b bytes =>
      rw [hb] at hread hfuel
      cases fuel with
      | zero => simp at hfuel
      | succ fuel =>
        have hlt : (xs.flatMap encode).length ≤ fuel := by
          simp at hfuel ⊢
          omega
        rw [List.cons_append, Reader.all, ← List.cons_append, hread]
        · simp [ih hxs hnxs fuel hlt]
        · nofun

end Reads

theorem flatten_flatMap {α β : Type} (xs : List α) (f : α → List (List β)) :
    (xs.flatMap f).flatten = xs.flatMap fun x => (f x).flatten := by
  rw [List.flatMap, List.flatten_flatten, List.map_map]
  rfl

theorem cut_flatten {α : Type} (xss : List (List α)) :
    cut (xss.map List.length) xss.flatten = xss := by
  induction xss with
  | nil => rfl
  | cons xs xss ih => rw [List.map_cons, List.flatten_cons, cut, List.take_left, List.drop_left, ih]

namespace ExportFormat

variable {data : List (List Value)} {vs : List Value}

theorem reads_full (data : List (List Value)) :
    Reads (full.readEvent (data.map List.length)) (full.encode data).flatten
      (data.map full.content) := by
  have hinput : ∀ vs ∈ data, Reads (do return Content.values (← Reader.many Reader.value vs.length))
      (vs.flatMap Bytes.ofValue) (full.content vs) := by
    intro vs _
    have hread := Reads.many fun v (_ : v ∈ vs) => Reads.value v
    rw [List.map_id'] at hread
    exact hread.map
  have hbytes : (full.encode data).flatten = data.flatMap fun vs => vs.flatMap Bytes.ofValue := by
    rw [encode, encodeFull, flatten_flatMap]
    rfl
  rw [readEvent, List.mapM_map, hbytes]
  exact Reads.mapM hinput

theorem content_sparse (vs : List Value) :
    sparse.content vs = .entries ((validEntries vs).map Prod.swap) := by
  rw [content, validEntries]
  refine congrArg Content.entries ?_
  induction vs.zipIdx with
  | nil => rfl
  | cons e es ih =>
    obtain ⟨v, i⟩ := e
    by_cases hv : v.isValid = true <;> simp [hv, ih]

theorem lt_of_mem_validEntries {e : Value × Nat} (h : e ∈ validEntries vs) : e.2 < vs.length := by
  have hget := List.mem_zipIdx_iff_getElem?.1 (List.mem_of_mem_filter h)
  exact (List.getElem?_eq_some_iff.1 hget).1

theorem length_validEntries_le (vs : List Value) : (validEntries vs).length ≤ vs.length :=
  (List.length_filter_le _ _).trans (Nat.le_of_eq List.length_zipIdx)

theorem reads_sparseInput (h : vs.length ≤ Operator.maxSparse) :
    Reads readEntries (encodeSparseInput vs).flatten (sparse.content vs) := by
  have hmax : Operator.maxSparse < 256 ^ 2 := by decide
  have hcount := Reads.number (Nat.lt_of_le_of_lt ((length_validEntries_le vs).trans h) hmax)
  have hindices := Reads.many fun e (he : e ∈ validEntries vs) =>
    Reads.number (Nat.lt_trans (lt_of_mem_validEntries he) (Nat.lt_of_le_of_lt h hmax))
  have hvalues := Reads.many fun e (_ : e ∈ validEntries vs) => Reads.value e.1
  have hbytes : (encodeSparseInput vs).flatten = Bytes.encode 2 (validEntries vs).length ++
      ((validEntries vs).flatMap (fun e => Bytes.encode 2 e.2) ++
        (validEntries vs).flatMap fun e => Bytes.ofValue e.1) := by
    rw [encodeSparseInput, List.cons_append, List.flatten_cons, List.flatten_append]
    rfl
  have hswap : (validEntries vs).map Prod.swap =
      ((validEntries vs).map Prod.snd).zip ((validEntries vs).map Prod.fst) := by
    rw [List.zip_map']
    rfl
  rw [content_sparse, hswap, hbytes]
  exact hcount.bind (hindices.bind hvalues.map)

/-- The number of an input's valid values and their indices fit sixteen bits each. -/
theorem reads_sparse (h : ∀ vs ∈ data, vs.length ≤ Operator.maxSparse) :
    Reads (sparse.readEvent (data.map List.length)) (sparse.encode data).flatten
      (data.map sparse.content) := by
  have hbytes : (sparse.encode data).flatten =
      data.flatMap fun vs => (encodeSparseInput vs).flatten := by
    rw [encode, encodeSparse, flatten_flatMap]
  rw [readEvent, List.mapM_map, hbytes]
  exact Reads.mapM fun vs hvs => reads_sparseInput (h vs hvs)

theorem ne_separator_of_mem_fieldText {v : Value} {b : UInt8} (h : b ∈ fieldText v) :
    b ≠ comma ∧ b ≠ newline := by
  rw [fieldText] at h
  split at h
  · exact Value.ne_separator_of_mem h
  · cases h

theorem textOf_fieldText (v : Value) :
    textOf (fieldText v) = some (if v.isValid then some v.text else none) := by
  rw [fieldText]
  split
  · rw [textOf, if_neg v.text_bytes_ne_nil, fromUTF8?_toUTF8]
    rfl
  · rfl

theorem mapM_textOf (vs : List Value) : (vs.map fieldText).mapM textOf =
    some (vs.map fun v => if v.isValid then some v.text else none) := by
  induction vs with
  | nil => rfl
  | cons v vs ih =>
    rw [List.map_cons, List.mapM_cons, textOf_fieldText, ih]
    rfl

theorem reads_line (hne : vs ≠ []) :
    Reads (Reader.line vs.length) (encodeLine vs).flatten (vs.map fieldText) := by
  induction vs with
  | nil => exact absurd rfl hne
  | cons v rest ih =>
    have hcomma : comma ∉ fieldText v := fun h => (ne_separator_of_mem_fieldText h).1 rfl
    have hnewline : newline ∉ fieldText v := fun h => (ne_separator_of_mem_fieldText h).2 rfl
    cases rest with
    | nil =>
      have hread := (Reads.upTo hnewline).map (f := fun field => [field])
      simpa [encodeLine, Reader.line] using hread
    | cons w rest =>
      have hbytes : (encodeLine (v :: w :: rest)).flatten =
          fieldText v ++ [comma] ++ (encodeLine (w :: rest)).flatten := by
        simp [encodeLine]
      rw [hbytes]
      exact (Reads.upTo hcomma).bind (ih (by simp)).map

theorem total_lengths {α : Type} (xss : List (List α)) :
    total (xss.map List.length) = xss.flatten.length := by
  induction xss with
  | nil => rfl
  | cons xs xss ih => rw [List.map_cons, total, ih, List.flatten_cons, List.length_append]

theorem reads_csv (hne : data.flatten ≠ []) :
    Reads (csv.readEvent (data.map List.length)) (csv.encode data).flatten
      (data.map csv.content) := by
  let told (v : Value) : Option String := if v.isValid then some v.text else none
  have hline := reads_line hne
  have htexts := Reads.lift (mapM_textOf data.flatten)
  have hcut : (cut (data.map List.length) (data.flatten.map told)).map Content.texts =
      data.map csv.content := by
    have hsizes : data.map List.length = (data.map (List.map told)).map List.length := by
      simp [Function.comp_def]
    rw [List.map_flatten, hsizes, cut_flatten, List.map_map]
    rfl
  rw [readEvent, total_lengths, ← hcut, ← List.append_nil (csv.encode data).flatten]
  exact hline.bind htexts.map

/-- A line has a comma between any two values and one newline, at its end. -/
theorem count_encodeLine (hne : vs ≠ []) :
    (encodeLine vs).flatten.count comma = vs.length - 1 ∧
      (encodeLine vs).flatten.count newline = 1 ∧
      (encodeLine vs).flatten.getLast? = some newline := by
  induction vs with
  | nil => exact absurd rfl hne
  | cons v rest ih =>
    have hcomma : (fieldText v).count comma = 0 :=
      List.count_eq_zero.2 fun h => (ne_separator_of_mem_fieldText h).1 rfl
    have hnewline : (fieldText v).count newline = 0 :=
      List.count_eq_zero.2 fun h => (ne_separator_of_mem_fieldText h).2 rfl
    cases rest with
    | nil =>
      have hbytes : (encodeLine [v]).flatten = fieldText v ++ [newline] := by simp [encodeLine]
      rw [hbytes, List.count_append, List.count_append, hcomma, hnewline]
      exact ⟨rfl, rfl, List.getLast?_concat⟩
    | cons w rest =>
      obtain ⟨hcommas, hnewlines, hlast⟩ := ih (by simp)
      have hbytes : (encodeLine (v :: w :: rest)).flatten =
          fieldText v ++ comma :: (encodeLine (w :: rest)).flatten := by
        simp [encodeLine]
      rw [hbytes]
      refine ⟨?_, ?_, ?_⟩
      · rw [List.count_append, List.count_cons_self, hcomma, hcommas]
        simp
      · rw [List.count_append, List.count_cons_of_ne (by decide), hnewline, hnewlines]
      · rw [List.getLast?_append, List.getLast?_cons, hlast]
        rfl

/-- What the sparse format tells of an input: where its valid values are, in order. -/
theorem entries_spec (vs : List Value) : ∃ es, sparse.content vs = .entries es ∧
    (es.map Prod.fst).Pairwise (· < ·) ∧
    (∀ i v, (i, v) ∈ es ↔ vs[i]? = some v ∧ v.isValid = true) ∧
    es.length ≤ vs.length ∧ ∀ e ∈ es, e.1 < vs.length := by
  refine ⟨_, content_sparse vs, ?_, fun i v => ?_, ?_, fun e he => ?_⟩
  · have hsnd : (vs.zipIdx.map Prod.snd).Pairwise (· < ·) := by
      rw [List.zipIdx_map_snd]
      exact List.pairwise_lt_range'
    have hindices : ((validEntries vs).map Prod.swap).map Prod.fst =
        (validEntries vs).map Prod.snd := by
      rw [List.map_map]
      rfl
    rw [hindices]
    exact hsnd.sublist (List.filter_sublist.map Prod.snd)
  · simp [validEntries, List.mem_zipIdx_iff_getElem?]
  · rw [List.length_map]
    exact length_validEntries_le vs
  · obtain ⟨e', he', rfl⟩ := List.mem_map.1 he
    exact lt_of_mem_validEntries he'

/-- An event is read back from the bytes that it was written as, which are not none. -/
theorem reads_event {f : ExportFormat} (hne : data.flatten ≠ [])
    (hsparse : f = .sparse → ∀ vs ∈ data, vs.length ≤ Operator.maxSparse) :
    Reads (f.readEvent (data.map List.length)) (f.encode data).flatten (data.map f.content) ∧
      (f.encode data).flatten ≠ [] := by
  have hdata : data ≠ [] := fun h => hne (by rw [h, List.flatten_nil])
  cases f with
  | full =>
    refine ⟨reads_full data, fun hnil => ?_⟩
    obtain ⟨v, hv⟩ := List.exists_mem_of_ne_nil _ hne
    obtain ⟨vs, hvs, hv⟩ := List.mem_flatten.1 hv
    have hpiece : Bytes.ofValue v ∈ encodeFull data :=
      List.mem_flatMap.2 ⟨vs, hvs, List.mem_map_of_mem hv⟩
    have hlength := Bytes.length_encode 8 v.bits.toNat
    rw [← Bytes.ofValue, List.flatten_eq_nil_iff.1 hnil _ hpiece] at hlength
    cases hlength
  | sparse =>
    refine ⟨reads_sparse (hsparse rfl), fun hnil => ?_⟩
    obtain ⟨vs, hvs⟩ := List.exists_mem_of_ne_nil _ hdata
    have hpiece : Bytes.encode 2 (validEntries vs).length ∈ encodeSparse data :=
      List.mem_flatMap.2 ⟨vs, hvs, List.mem_cons_self⟩
    have hlength := Bytes.length_encode 2 (validEntries vs).length
    rw [List.flatten_eq_nil_iff.1 hnil _ hpiece] at hlength
    cases hlength
  | csv =>
    refine ⟨reads_csv hne, fun hnil => ?_⟩
    have hlast := (count_encodeLine hne).2.2
    rw [show (encodeLine data.flatten).flatten = _ from hnil] at hlast
    cases hlast

end ExportFormat

theorem Operator.exportSink_ok {inputs : List Pipe} {condition : Option Pipe} {path : String}
    {f : ExportFormat} {level : Int} {a a' : Arena} {op : Operator}
    (h : exportSink inputs condition path f level a = (.ok op, a')) :
    f = .sparse → ∀ p ∈ inputs, p.length ≤ maxSparse := by
  rw [exportSink] at h
  split at h
  · cases h
  · dsimp only at h
    split at h
    · cases h
    · split at h
      · cases h
      · next hsize =>
        intro hf p hp
        by_contra hlong
        exact hsize ⟨hf, List.any_eq_true.2 ⟨p, hp, by simpa using hlong⟩⟩

open ExportFormat in
/-- An export that was accepted, of inputs that have elements at all, is read back from its bytes
by what is known of its format and its sizes: the number of events, and for each event and input
what the format is there to tell. Numbers of the sparse format fit their two bytes, and each event
of the text format is one line with one field for each element. -/
theorem decode_exported (inputs : List Pipe) (condition : Option Pipe) (path : String)
    (f : ExportFormat) (level : Int) (a a' : Arena) (op : Operator)
    (h : Operator.exportSink inputs condition path f level a = (.ok op, a'))
    (hne : 0 < total (inputs.map Pipe.length)) (events : List (List (List Value)))
    (hshape : ∀ data ∈ events, data.map List.length = inputs.map Pipe.length) :
    f.decode (inputs.map Pipe.length) (events.flatMap fun data => (f.encode data).flatten) =
      some (events.map fun data => data.map f.content) ∧
    (f = .sparse → ∀ data ∈ events, ∀ vs ∈ data, ∃ es, f.content vs = .entries es ∧
      (es.map Prod.fst).Pairwise (· < ·) ∧
      (∀ i v, (i, v) ∈ es ↔ vs[i]? = some v ∧ v.isValid = true) ∧
      es.length < 2 ^ 16 ∧ ∀ e ∈ es, e.1 < 2 ^ 16) ∧
    (f = .csv → ∀ data ∈ events,
      (f.encode data).flatten.count comma = total (inputs.map Pipe.length) - 1 ∧
      (f.encode data).flatten.count newline = 1 ∧
      (f.encode data).flatten.getLast? = some newline) := by
  have hflatten : ∀ data ∈ events, data.flatten ≠ [] := by
    intro data hdata hnil
    rw [← hshape data hdata, total_lengths, hnil] at hne
    exact Nat.lt_irrefl 0 hne
  have hsparse : ∀ data ∈ events, f = .sparse → ∀ vs ∈ data, vs.length ≤ Operator.maxSparse := by
    intro data hdata hf vs hvs
    have hmem : vs.length ∈ inputs.map Pipe.length :=
      hshape data hdata ▸ List.mem_map_of_mem hvs
    obtain ⟨p, hp, hlength⟩ := List.mem_map.1 hmem
    rw [← hlength]
    exact Operator.exportSink_ok h hf p hp
  refine ⟨?_, ?_, ?_⟩
  · refine Reads.all (fun data hdata => ?_) (fun data hdata => ?_) _ (Nat.le_refl _)
    · rw [← hshape data hdata]
      exact (reads_event (hflatten data hdata) (hsparse data hdata)).1
    · exact (reads_event (hflatten data hdata) (hsparse data hdata)).2
  · rintro rfl data hdata vs hvs
    have hmax : Operator.maxSparse < 2 ^ 16 := by decide
    have hle := hsparse data hdata rfl vs hvs
    obtain ⟨es, hes, hsorted, hmem, hlength, hindex⟩ := entries_spec vs
    exact ⟨es, hes, hsorted, hmem, by omega, fun e he => by have := hindex e he; omega⟩
  · rintro rfl data hdata
    rw [← hshape data hdata, total_lengths]
    exact count_encodeLine (hflatten data hdata)

/-- One of two elements is valid. -/
theorem decode_exported_sparse :
    ExportFormat.decode .sparse [2] [1, 0, 1, 0, 0, 0, 0, 0, 0, 0, 240, 63] =
      some [[.entries [(1, Value.one)]]] :=
  (decode_exported [⟨⟨0, 2⟩, ⟨2, 2⟩, ⟨4, 2⟩⟩] none "out" .sparse 0 (Arena.new 64) _ _ rfl
    (by decide) [[[Value.invalid, Value.one]]] (by decide)).1

end Readout
