import Terrier.Network.PacketWriter

/-!
Rows on the wire. A row comes through exactly if no column follows a NULL one but NULLs, since
the writer does not advance over a NULL and finds it again, and in binary if all values are
strings, since only for these the announced length is that of the bytes.
-/

namespace Terrier.Network

open BigEndian
open List Option

def parseColumn (bytes : List UInt8) : Option (Option (List UInt8) × List UInt8) := do
  let (field, rest) ← take? 4 bytes
  let length := decode field
  if length = 2 ^ 32 - 1 then some (none, rest)
  else if 2 ^ 31 ≤ length then none
  else do
    let (value, rest) ← take? length rest
    some (some value, rest)

def parseColumns : Nat → List UInt8 → Option (List (Option (List UInt8)))
  | 0, bytes => if bytes = [] then some [] else none
  | n + 1, bytes => do
      let (column, rest) ← parseColumn bytes
      let columns ← parseColumns n rest
      some (column :: columns)

/-- The packet: its type, its length, the number of columns and the columns. Numbers are signed. -/
def parseDataRow (packet : List UInt8) : Option (List (Option (List UInt8))) := do
  let (type, rest) ← take? 1 packet
  let (length, rest) ← take? 4 rest
  if type = [68] ∧ decode length = 4 + rest.length ∧ decode length < 2 ^ 31 then do
    let (count, rest) ← take? 2 rest
    if decode count < 2 ^ 15 then parseColumns (decode count) rest else none
  else none

structure Field where
  announced : Nat
  bytes : List UInt8

def Value.bytes (forms : TextForms) : FieldFormat → Value → List UInt8
  | .text, value => value.text forms
  | .binary, value => value.binary forms

def fieldOf (forms : TextForms) (format : FieldFormat) (type : ColumnType) (value : Value) :
    Field where
  announced :=
    match format, value with
    | .text, value => (value.text forms).length
    | .binary, .string content => content.length
    | .binary, _ => getSqlSize type
  bytes := value.bytes forms format

def encodeColumn : Option Field → List UInt8
  | none => encode 4 (2 ^ 32 - 1)
  | some field => encode 4 field.announced ++ field.bytes

/-- The columns that are written for the columns of a row: from the first NULL on, only NULLs. -/
def written (forms : TextForms) (format : FieldFormat) : List Cell → List (Option Field)
  | [] => []
  | cell :: cells =>
    match cell.value with
    | none => none :: cells.map fun _ => none
    | some value => some (fieldOf forms format cell.type value) :: written forms format cells

namespace OpenPacket

def ofBody (type : UInt8) (body : List UInt8) : OpenPacket :=
  ⟨type, UInt32.ofNat body.length, body⟩

theorem ofBody_appendRaw (type : UInt8) (body src : List UInt8) :
    (ofBody type body).appendRaw src = ofBody type (body ++ src) := by
  simp [ofBody, appendRaw]

theorem ofBody_appendField (type : UInt8) (body : List UInt8) (forms : TextForms)
    (format : FieldFormat) (column : ColumnType) (value : Value) :
    (ofBody type body).appendField forms format column value =
      ofBody type (body ++ encodeColumn (some (fieldOf forms format column value))) := by
  have happend (announced : Nat) (bytes : List UInt8) :
      ((ofBody type body).appendValue 4 announced).appendRaw bytes =
        ofBody type (body ++ encodeColumn (some ⟨announced, bytes⟩)) := by
    rw [appendValue, ofBody_appendRaw, ofBody_appendRaw, append_assoc]
    rfl
  cases format with
  | text => exact happend _ _
  | binary => cases value <;> exact happend _ _

theorem decode_endPacket_length (type : UInt8) (body : List UInt8) :
    decode (encode 4 ((ofBody type body).length + 4).toNat) = (4 + body.length) % 2 ^ 32 := by
  have hlen : ((ofBody type body).length + 4).toNat = (4 + body.length) % 2 ^ 32 := by
    simp [ofBody, UInt32.toNat_add, Nat.add_comm]
  rw [decode_encode_mod, hlen]
  norm_num

end OpenPacket

def rowSize : List Cell → Nat
  | [] => 0
  | cell :: cells => getSqlSize cell.type + rowSize cells

theorem rowSize_append (cells others : List Cell) :
    rowSize (cells ++ others) = rowSize cells + rowSize others := by
  induction cells with
  | nil => simp [rowSize]
  | cons cell cells ih => rw [cons_append, rowSize, rowSize, ih, Nat.add_assoc]

theorem cellAt_rowSize (before : List Cell) (cell : Cell) (after : List Cell) :
    cellAt (before ++ cell :: after) (rowSize before) = some cell := by
  induction before with
  | nil => rfl
  | cons first before ih =>
    have hpos := getSqlSize_pos first.type
    rw [cons_append, cellAt, rowSize, if_neg (by omega), if_neg (by omega),
      Nat.add_sub_cancel_left, ih]

variable (forms : TextForms)

/-- At a NULL the writer finds NULL for every further column. -/
theorem writeColumns_null (format : FieldFormat) {tuple : List Cell} {offset : Nat} {cell : Cell}
    (hcell : cellAt tuple offset = some cell) (hnull : cell.value = none) (type : UInt8)
    (body : List UInt8) (types : List ColumnType) :
    (OpenPacket.ofBody type body).writeColumns forms format tuple offset types =
      some (.ofBody type (body ++ types.flatMap fun _ => encodeColumn none)) := by
  induction types generalizing body with
  | nil => simp [OpenPacket.writeColumns]
  | cons column types ih =>
    simp only [OpenPacket.writeColumns, hcell, bind_eq_bind, bind_some, hnull,
      OpenPacket.appendValue, OpenPacket.ofBody_appendRaw]
    rw [ih, flatMap_cons, append_assoc]
    rfl

theorem writeColumns_written (format : FieldFormat) (before cells : List Cell) (type : UInt8)
    (body : List UInt8) :
    (OpenPacket.ofBody type body).writeColumns forms format (before ++ cells) (rowSize before)
        (cells.map Cell.type) =
      some (.ofBody type (body ++ (written forms format cells).flatMap encodeColumn)) := by
  induction cells generalizing before body with
  | nil => simp [OpenPacket.writeColumns, written]
  | cons cell cells ih =>
    have hcell := cellAt_rowSize before cell cells
    cases hvalue : cell.value with
    | none =>
      rw [writeColumns_null forms format hcell hvalue, written, hvalue]
      simp only [map_cons, flatMap_cons, flatMap_map]
    | some value =>
      have hkind : value.kind = cell.type.kind := cell.kind_eq value (by simp [hvalue])
      have hnext := ih (before ++ [cell])
        (body ++ encodeColumn (some (fieldOf forms format cell.type value)))
      rw [rowSize_append, append_assoc] at hnext
      simp only [map_cons, OpenPacket.writeColumns, hcell, bind_eq_bind,
        bind_some, hvalue, hkind, if_true, OpenPacket.ofBody_appendField, written,
        flatMap_cons]
      simpa [rowSize] using hnext

theorem writeDataRow_eq (format : FieldFormat) (tuple : List Cell) :
    writeDataRow forms format tuple = some (OpenPacket.ofBody 68
      (encode 2 tuple.length ++ (written forms format tuple).flatMap encodeColumn)).endPacket := by
  have hwrit := writeColumns_written forms format [] tuple 68 (encode 2 tuple.length)
  have hbegin : (OpenPacket.beginPacket 68).appendValue 2 tuple.length =
      .ofBody 68 (encode 2 tuple.length) := by
    have hempty : OpenPacket.beginPacket 68 = .ofBody 68 [] := rfl
    rw [OpenPacket.appendValue, hempty, OpenPacket.ofBody_appendRaw, nil_append]
  simp only [writeDataRow, length_map, hbegin]
  rw [nil_append] at hwrit
  rw [show (0 : Nat) = rowSize [] from rfl, hwrit]
  rfl

theorem parseColumn_null (rest : List UInt8) :
    parseColumn (encodeColumn none ++ rest) = some (none, rest) := by
  have hnull : decode (encode 4 (2 ^ 32 - 1)) = 2 ^ 32 - 1 := decode_encode (by norm_num)
  rw [parseColumn, encodeColumn, take?_append (length_encode 4 _)]
  simp only [bind_eq_bind, bind_some, hnull, if_true]

theorem parseColumn_field (field : Field) (hsize : field.announced < 2 ^ 31) (rest : List UInt8) :
    parseColumn (encodeColumn (some field) ++ rest) =
      (take? field.announced (field.bytes ++ rest)).map fun p => (some p.1, p.2) := by
  have hlen : decode (encode 4 field.announced) = field.announced :=
    decode_encode (by norm_num; omega)
  rw [parseColumn, encodeColumn, append_assoc, take?_append (length_encode 4 _)]
  simp only [bind_eq_bind, bind_some, hlen]
  rw [if_neg (by omega), if_neg (by omega)]
  cases take? field.announced (field.bytes ++ rest) <;> rfl

variable {columns : List (Option (List UInt8))}

theorem length_parseColumns {n : Nat} {bytes : List UInt8}
    (h : parseColumns n bytes = some columns) : columns.length = n := by
  induction n generalizing bytes columns with
  | zero =>
    obtain ⟨-, heq⟩ := ite_none_right_eq_some.mp h
    cases heq
    rfl
  | succ n ih =>
    obtain ⟨⟨column, rest⟩, -, h⟩ := bind_eq_some_iff.1 h
    obtain ⟨others, hoth, heq⟩ := bind_eq_some_iff.1 h
    cases heq
    rw [length_cons, ih hoth]

def Writes : Option Field → Option (List UInt8) → Prop
  | none, _ => True
  | some field, column => column = some field.bytes

/-- What is written for a column is read back as the column. -/
def Delivers : Option Field → Option (List UInt8) → Prop
  | none, column => column = none
  | some field, _ => field.announced = field.bytes.length

theorem bind_cons_eq_some {α : Type} {others : Option (List α)} {a b : α} {rest : List α} :
    (others.bind fun tail => some (a :: tail)) = some (b :: rest) ↔ a = b ∧ others = some rest := by
  cases others with
  | none => simp
  | some tail => simp

variable {fields : List (Option Field)} {forms : TextForms} {format : FieldFormat}
  {cells : List Cell} {field : Field}

theorem parseColumns_iff (hwr : List.Forall₂ Writes fields columns)
    (hsize : ∀ field, some field ∈ fields → field.announced < 2 ^ 31) :
    parseColumns fields.length (fields.flatMap encodeColumn) = some columns ↔
      List.Forall₂ Delivers fields columns := by
  induction hwr with
  | nil => simp [parseColumns]
  | @cons field column fields columns hwrite _ ih =>
    have ih := ih fun field hfield => hsize field (mem_cons_of_mem _ hfield)
    rw [forall₂_cons, length_cons, flatMap_cons, parseColumns, ← ih]
    cases field with
    | none =>
      rw [parseColumn_null]
      simp only [bind_eq_bind, bind_some, bind_cons_eq_some, Delivers]
      rw [eq_comm]
    | some field =>
      rw [parseColumn_field field (hsize field mem_cons_self)]
      cases hwrite
      by_cases hann : field.announced = field.bytes.length
      · rw [hann, take?_append rfl]
        simp only [map_some, bind_eq_bind, bind_some, bind_cons_eq_some, Delivers, hann]
      · have hwrong : ¬ Delivers (some field) (some field.bytes) := hann
        simp only [hwrong, false_and, iff_false]
        intro hparse
        obtain ⟨⟨value, rest⟩, hvalue, hrest⟩ := bind_eq_some_iff.1 hparse
        obtain ⟨others, -, heq⟩ := bind_eq_some_iff.1 hrest
        obtain ⟨⟨front, rest'⟩, htake, hpair⟩ := map_eq_some_iff.1 hvalue
        have hlen := length_of_take? htake
        cases hpair
        cases heq
        exact hann hlen.symm

/-- The column of a row that the client is to get. -/
def Cell.column (forms : TextForms) (format : FieldFormat) (cell : Cell) : Option (List UInt8) :=
  cell.value.map (Value.bytes forms format)

theorem written_writes (forms : TextForms) (format : FieldFormat) (cells : List Cell) :
    List.Forall₂ Writes (written forms format cells) (cells.map (Cell.column forms format)) := by
  induction cells with
  | nil => exact .nil
  | cons cell cells ih =>
    rw [written, map_cons]
    cases hvalue : cell.value with
    | none =>
      refine .cons trivial ?_
      rw [forall₂_map_left_iff, forall₂_map_right_iff]
      exact forall₂_same.2 fun _ _ => trivial
    | some value =>
      refine .cons ?_ ih
      rw [Cell.column, hvalue]
      rfl

/-- The announced length is right in text, and in binary for strings. -/
theorem announced_eq_iff (forms : TextForms) (format : FieldFormat) {type : ColumnType}
    {value : Value} (hkind : value.kind = type.kind) :
    (fieldOf forms format type value).announced = (fieldOf forms format type value).bytes.length ↔
      (format = .binary → type = .varchar) := by
  cases format with
  | text => simp [fieldOf, Value.bytes]
  | binary =>
    cases type <;> cases value <;> first
        | simp [fieldOf, Value.bytes, Value.binary, getSqlSize, ColumnType.kind]; done
        | cases hkind

theorem written_delivers_iff (forms : TextForms) (format : FieldFormat) (cells : List Cell) :
    List.Forall₂ Delivers (written forms format cells) (cells.map (Cell.column forms format)) ↔
      cells.Pairwise (fun cell later => cell.value = none → later.value = none) ∧
        (format = .binary → ∀ cell ∈ cells, cell.value ≠ none → cell.type = .varchar) := by
  induction cells with
  | nil => simp [written]
  | cons cell cells ih =>
    rw [written, map_cons, pairwise_cons]
    cases hvalue : cell.value with
    | none =>
      have hnulls : List.Forall₂ Delivers (cells.map fun _ => none)
          (cells.map (Cell.column forms format)) ↔ ∀ later ∈ cells, later.value = none := by
        rw [forall₂_map_left_iff, forall₂_map_right_iff, forall₂_same]
        simp [Delivers, Cell.column]
      rw [forall₂_cons, hnulls]
      constructor
      · rintro ⟨-, hnull⟩
        refine ⟨⟨fun later hlater _ => hnull later hlater, ?_⟩, ?_⟩
        · exact pairwise_of_forall_mem_list fun _ _ later hlater _ => hnull later hlater
        · intro _ other hother hvalue'
          obtain rfl | hother := mem_cons.1 hother
          · exact absurd hvalue hvalue'
          · exact absurd (hnull other hother) hvalue'
      · rintro ⟨⟨hnull, -⟩, -⟩
        refine ⟨?_, fun later hlater => hnull later hlater rfl⟩
        rw [Delivers, Cell.column, hvalue]
        rfl
    | some value =>
      have hkind : value.kind = cell.type.kind := cell.kind_eq value (by simp [hvalue])
      have hann := announced_eq_iff forms format hkind
      rw [forall₂_cons, ih]
      simp only [Delivers, hann, forall_mem_cons, hvalue, ne_eq, reduceCtorEq,
        not_false_eq_true, true_implies, false_implies, implies_true, true_and]
      tauto

/-- The size of a packet with the given columns, without the byte of its type. -/
def packetSize (columns : List (Option (List UInt8))) : Nat :=
  6 + (columns.map fun column => 4 + (column.getD []).length).sum

theorem length_encodeColumns (hwr : List.Forall₂ Writes fields columns)
    (hdelivers : List.Forall₂ Delivers fields columns) : (fields.flatMap encodeColumn).length =
      (columns.map fun column => 4 + (column.getD []).length).sum := by
  induction hwr with
  | nil => rfl
  | @cons field column fields columns hwrite _ ih =>
    obtain ⟨hfield, hrest⟩ := forall₂_cons.1 hdelivers
    rw [flatMap_cons, length_append, map_cons, sum_cons, ih hrest]
    cases field with
    | none =>
      cases hfield
      simp [encodeColumn]
    | some field =>
      cases hwrite
      simp [encodeColumn]

theorem length_written (forms : TextForms) (format : FieldFormat) (cells : List Cell) :
    (written forms format cells).length = cells.length := by
  simpa using (written_writes forms format cells).length_eq

theorem announced_le (forms : TextForms) (format : FieldFormat) (type : ColumnType)
    (value : Value) :
    (fieldOf forms format type value).announced ≤
      max 24 (fieldOf forms format type value).bytes.length := by
  have hsize : getSqlSize type ≤ 24 := by cases type <;> decide
  cases format with
  | text => exact le_max_right _ _
  | binary =>
    cases value with
    | string content => exact le_max_right _ _
    | _ => exact hsize.trans (le_max_left _ _)

theorem mem_written (h : some field ∈ written forms format cells) :
    ∃ type value, field = fieldOf forms format type value := by
  induction cells with
  | nil => cases h
  | cons cell cells ih =>
    rw [written] at h
    cases hvalue : cell.value with
    | none => simp [hvalue] at h
    | some value =>
      rw [hvalue] at h
      obtain hfield | hfield := mem_cons.1 h
      · cases hfield
        exact ⟨_, _, rfl⟩
      · exact ih hfield

theorem written_announced_lt
    (hsize : ((written forms format cells).flatMap encodeColumn).length < 2 ^ 31)
    (h : some field ∈ written forms format cells) : field.announced < 2 ^ 31 := by
  have hpart : (encodeColumn (some field)).length ≤
      ((written forms format cells).flatMap encodeColumn).length :=
    (sublist_flatten_of_mem (List.mem_map_of_mem h)).length_le
  obtain ⟨type, value, rfl⟩ := mem_written h
  have hle := announced_le forms format type value
  rw [encodeColumn, length_append] at hpart
  omega

theorem parseDataRow_endPacket (count : Nat) (rest : List UInt8) :
    parseDataRow (OpenPacket.ofBody 68 (encode 2 count ++ rest)).endPacket =
      if 6 + rest.length < 2 ^ 31 ∧ count % 2 ^ 16 < 2 ^ 15 then parseColumns (count % 2 ^ 16) rest
      else none := by
  have htype (bytes : List UInt8) : take? 1 (68 :: bytes) = some ([68], bytes) :=
    @take?_append 1 [68] rfl bytes
  have hlen := OpenPacket.decode_endPacket_length 68 (encode 2 count ++ rest)
  have hbody : (encode 2 count ++ rest).length = 2 + rest.length := by simp
  have hcount : decode (encode 2 count) = count % 2 ^ 16 := by
    rw [decode_encode_mod]
    norm_num
  rw [parseDataRow, OpenPacket.endPacket]
  simp only [OpenPacket.ofBody] at hlen ⊢
  rw [hbody] at hlen
  simp only [htype, bind_eq_bind, bind_some, take?_append (length_encode 4 _),
    take?_append (length_encode 2 _), hlen, hbody, hcount, true_and]
  by_cases hfits : 6 + rest.length < 2 ^ 31
  · rw [if_pos (by omega)]
    simp only [hfits, true_and]
  · rw [if_neg (by omega), if_neg (by tauto)]

/-- A row comes through exactly if only NULLs follow a NULL, all values are strings if the format is
binary, and the numbers of the packet can hold the number of columns and the size. -/
theorem dataRow_parses_iff (forms : TextForms) (format : FieldFormat) (tuple : List Cell) :
    (∃ packet, writeDataRow forms format tuple = some packet ∧
        parseDataRow packet = some (tuple.map (Cell.column forms format))) ↔
      tuple.Pairwise (fun cell later => cell.value = none → later.value = none) ∧
        (format = .binary → ∀ cell ∈ tuple, cell.value ≠ none → cell.type = .varchar) ∧
        tuple.length < 2 ^ 15 ∧
        packetSize (tuple.map (Cell.column forms format)) < 2 ^ 31 := by
  have hwrites := written_writes forms format tuple
  have hdelivers := written_delivers_iff forms format tuple
  have hlength := length_written forms format tuple
  simp only [writeDataRow_eq, Option.some.injEq, exists_eq_left', parseDataRow_endPacket]
  constructor
  · intro hparse
    obtain ⟨⟨hfits, hcount⟩, hcolumns⟩ := ite_none_right_eq_some.mp hparse
    have hall := length_parseColumns hcolumns
    rw [length_map] at hall
    rw [← hall, ← hlength] at hcolumns
    have hread := (parseColumns_iff hwrites fun field => written_announced_lt (by omega)).1 hcolumns
    obtain ⟨hnulls, hstrings⟩ := hdelivers.1 hread
    refine ⟨hnulls, hstrings, by omega, ?_⟩
    rw [packetSize, ← length_encodeColumns hwrites hread]
    exact hfits
  · rintro ⟨hnulls, hstrings, hcount, hsize⟩
    have hread := hdelivers.2 ⟨hnulls, hstrings⟩
    rw [packetSize, ← length_encodeColumns hwrites hread] at hsize
    rw [Nat.mod_eq_of_lt (by omega), if_pos ⟨hsize, hcount⟩, ← hlength]
    exact (parseColumns_iff hwrites fun field => written_announced_lt (by omega)).2 hread

/-- Texts of the kinds that the following row does not have. -/
def noForms : TextForms := ⟨fun _ => [], fun _ => [], fun _ => [], id⟩

def nullThenSeven : List Cell :=
  [⟨.integer, none, by simp⟩, ⟨.integer, some (.integer 7), by simp [Value.kind, ColumnType.kind]⟩]

/-- The number behind the NULL arrives as NULL. -/
theorem nullThenSeven_lost : ¬ ∃ packet, writeDataRow noForms .text nullThenSeven = some packet ∧
      parseDataRow packet = some (nullThenSeven.map (Cell.column noForms .text)) := by
  rintro ⟨packet, hwrite, hparse⟩
  have hpacket : writeDataRow noForms .text nullThenSeven =
      some [68, 0, 0, 0, 14, 0, 2, 255, 255, 255, 255, 255, 255, 255, 255] := by decide
  have hnulls : parseDataRow [68, 0, 0, 0, 14, 0, 2, 255, 255, 255, 255, 255, 255, 255, 255] =
      some [none, none] := by decide
  rw [hpacket] at hwrite
  cases hwrite
  rw [hnulls] at hparse
  simp [nullThenSeven, Cell.column] at hparse

end Terrier.Network
