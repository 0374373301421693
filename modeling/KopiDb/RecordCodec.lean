import KopiDb.Record
import KopiDb.Lib.LittleEndian

/-!
# Log records as bytes

A record is its length, its number, its type and, depending on the type, a key and a value
with their lengths.  Reading accepts exactly what writing produces.
-/

namespace KopiDb

namespace OperationType

/-- The position in the enumeration, which is the byte in the log. -/
def code : OperationType → ℕ
  | opCreate => 0
  | opCommit => 1
  | opRollback => 2
  | opPut => 3
  | opDelete => 4

def ofCode : ℕ → Option OperationType
  | 0 => some opCreate
  | 1 => some opCommit
  | 2 => some opRollback
  | 3 => some opPut
  | 4 => some opDelete
  | _ => none

/-- Records of the type have a key. -/
def hasKey (type : OperationType) : Bool := decide (type = opPut ∨ type = opDelete)

/-- Records of the type have a value. -/
def hasValue (type : OperationType) : Bool := decide (type = opPut)

theorem ofCode_code (type : OperationType) : ofCode type.code = some type := by
  cases type <;> rfl

theorem code_of_ofCode {code : ℕ} {type : OperationType} (hcode : ofCode code = some type) :
    type.code = code := by
  unfold ofCode at hcode
  split at hcode <;> first | (cases hcode; rfl) | cases hcode

end OperationType

namespace Record

/-! ## Writing -/

/-- The lambda `append_string` of `encode`. -/
def appendString (text : Bytes) : Bytes := toLe 2 text.length ++ text

/-- The part behind the header. -/
def payload (record : Record) : Bytes :=
  (if record.operationType.hasKey then appendString record.key else []) ++
    if record.operationType.hasValue then appendString record.value else []

def encode (record : Record) : Bytes :=
  toLe 2 record.recordLen ++ (toLe 8 record.trancId ++
    (toLe 1 record.operationType.code ++ record.payload))

/-- The bytes of a batch of records. -/
def encodeAll (records : List Record) : Bytes := records.flatMap encode

/-- A record that one of the factories makes for a 64-bit number. -/
inductive Made : Record → Prop where
  | create {trancId : ℕ} (hid : trancId < 256 ^ 8) : Made (createRecord trancId)
  | commit {trancId : ℕ} (hid : trancId < 256 ^ 8) : Made (commitRecord trancId)
  | rollback {trancId : ℕ} (hid : trancId < 256 ^ 8) : Made (rollbackRecord trancId)
  | put {trancId : ℕ} {key value : Bytes} {record : Record} (hid : trancId < 256 ^ 8)
      (hput : putRecord trancId key value = .ok record) : Made record
  | delete {trancId : ℕ} {key : Bytes} {record : Record} (hid : trancId < 256 ^ 8)
      (hdelete : deleteRecord trancId key = .ok record) : Made record

/-! ## Reading -/

/-- The lambda `read_uint` of `decode`; the input ends where the reading has to. -/
def readUint (byteCount : ℕ) (input : Bytes) : Except Err (ℕ × Bytes) :=
  if byteCount > input.length then
    .error (.runtimeError "Record::decode: truncated integer")
  else .ok (ofLe (input.take byteCount), input.drop byteCount)

/-- The lambda `read_string` of `decode`. -/
def readString (input : Bytes) : Except Err (Bytes × Bytes) :=
  match readUint 2 input with
  | .error err => .error err
  | .ok (length, rest) =>
      if length > rest.length then
        .error (.runtimeError "Record::decode: truncated string")
      else .ok (rest.take length, rest.drop length)

/-- A string of the types that have one, nothing of the others. -/
def readStringIf (present : Bool) (input : Bytes) : Except Err (Bytes × Bytes) :=
  if present then readString input else .ok ([], input)

/-- The fields of one record behind its length, up to the end that the length gives. -/
def decodeFields (recordLen : ℕ) (body : Bytes) : Except Err Record :=
  match readUint 8 body with
  | .error err => .error err
  | .ok (trancId, rest) =>
      match readUint 1 rest with
      | .error err => .error err
      | .ok (code, rest) =>
          match OperationType.ofCode code with
          | none => .error (.runtimeError
              "Record::decode: record length does not match payload")
          | some type =>
              match readStringIf type.hasKey rest with
              | .error err => .error err
              | .ok (key, rest) =>
                  match readStringIf type.hasValue rest with
                  | .error err => .error err
                  | .ok (value, rest) =>
                      if rest ≠ [] then .error (.runtimeError
                        "Record::decode: record length does not match payload")
                      else .ok ⟨trancId, type, key, value, recordLen⟩

/-- One round of the loop of `decode`: a record and what follows it. -/
def decodeOne (data : Bytes) : Except Err (Record × Bytes) :=
  match readUint 2 data with
  | .error err => .error err
  | .ok (recordLen, _) =>
      if recordLen < headerSize ∨ recordLen > data.length then
        .error (.runtimeError "Record::decode: invalid record length")
      else
        (decodeFields recordLen ((data.take recordLen).drop 2)).map fun record =>
          (record, data.drop recordLen)

/-- At most `fuel` rounds of the loop of `decode`. -/
def decodeLoop : ℕ → Bytes → Except Err (List Record)
  | _, [] => .ok []
  | 0, _ :: _ => .error .diverges
  | fuel + 1, byte :: rest =>
      match decodeOne (byte :: rest) with
      | .error err => .error err
      | .ok (record, data) => (decodeLoop fuel data).map fun records => record :: records

/-- `Record::decode`: every record takes at least one byte. -/
def decode (data : Bytes) : Except Err (List Record) := decodeLoop data.length data

/-! ## Reading inverts writing -/

theorem readUint_eq_ok {byteCount value : ℕ} {input rest : Bytes} :
    readUint byteCount input = .ok (value, rest) ↔
      value < 256 ^ byteCount ∧ input = toLe byteCount value ++ rest := by
  unfold readUint
  constructor
  · intro hread
    split_ifs at hread with hshort
    obtain ⟨rfl, rfl⟩ := Prod.mk.inj (Except.ok.inj hread)
    have hlength : (input.take byteCount).length = byteCount :=
      List.length_take_of_le (not_lt.mp hshort)
    constructor
    · have hlt := ofLe_lt (input.take byteCount)
      rwa [hlength] at hlt
    · rw [toLe_ofLe_of_length hlength, List.take_append_drop]
  · rintro ⟨hvalue, rfl⟩
    have hlength := length_toLe byteCount value
    rw [if_neg, List.take_left' hlength, List.drop_left' hlength, ofLe_toLe hvalue]
    simp

theorem readString_eq_ok {input text rest : Bytes} :
    readString input = .ok (text, rest) ↔
      text.length ≤ uint16Max ∧ input = appendString text ++ rest := by
  unfold readString appendString
  constructor
  · intro hread
    split at hread
    next => cases hread
    next length behind hlength =>
      obtain ⟨hlt, rfl⟩ := readUint_eq_ok.mp hlength
      split_ifs at hread with hshort
      obtain ⟨rfl, rfl⟩ := Prod.mk.inj (Except.ok.inj hread)
      have htake := List.length_take_of_le (not_lt.mp hshort)
      rw [htake, List.append_assoc, List.take_append_drop]
      exact ⟨Nat.le_of_lt_succ hlt, rfl⟩
  · rintro ⟨hlength, rfl⟩
    have hread : readUint 2 (toLe 2 text.length ++ text ++ rest) =
        .ok (text.length, text ++ rest) := by
      rw [readUint_eq_ok, List.append_assoc]
      exact ⟨Nat.lt_succ_of_le hlength, rfl⟩
    rw [hread]
    dsimp only
    rw [if_neg, List.take_left, List.drop_left]
    simp

theorem readStringIf_eq_ok {present : Bool} {input text rest : Bytes} :
    readStringIf present input = .ok (text, rest) ↔
      text.length ≤ uint16Max ∧ (present = false → text = []) ∧
        input = (if present then appendString text else []) ++ rest := by
  unfold readStringIf
  cases present with
  | false =>
      rw [if_neg Bool.false_ne_true, if_neg Bool.false_ne_true, List.nil_append]
      constructor
      · intro hread
        obtain ⟨rfl, rfl⟩ := Prod.mk.inj (Except.ok.inj hread)
        exact ⟨Nat.zero_le _, fun _ => rfl, rfl⟩
      · rintro ⟨-, htext, rfl⟩
        rw [htext rfl]
  | true =>
      rw [if_pos rfl, if_pos rfl, readString_eq_ok]
      exact and_congr_right fun _ => (and_iff_right fun habsurd => by cases habsurd).symm

theorem length_appendString (text : Bytes) : (appendString text).length = 2 + text.length := by
  rw [appendString, List.length_append, length_toLe]

theorem length_payload (record : Record) : record.payload.length =
    (if record.operationType.hasKey then 2 + record.key.length else 0) +
      if record.operationType.hasValue then 2 + record.value.length else 0 := by
  rw [payload, List.length_append, apply_ite List.length, apply_ite List.length,
    length_appendString, length_appendString, List.length_nil]

/-- What the factories make, seen from the bytes. -/
theorem made_iff {record : Record} :
    record.Made ↔ record.trancId < 256 ^ 8 ∧
      (record.operationType.hasKey = false → record.key = []) ∧
      (record.operationType.hasValue = false → record.value = []) ∧
      record.recordLen = headerSize + record.payload.length ∧ record.recordLen ≤ uint16Max := by
  constructor
  · intro hmade
    cases hmade with
    | create hid => exact ⟨hid, fun _ => rfl, fun _ => rfl, rfl,
        show headerSize ≤ uint16Max by decide⟩
    | commit hid => exact ⟨hid, fun _ => rfl, fun _ => rfl, rfl,
        show headerSize ≤ uint16Max by decide⟩
    | rollback hid => exact ⟨hid, fun _ => rfl, fun _ => rfl, rfl,
        show headerSize ≤ uint16Max by decide⟩
    | put hid hput =>
        unfold putRecord at hput
        dsimp only at hput
        split_ifs at hput with hlong htotal
        obtain rfl := Except.ok.inj hput
        refine ⟨hid, fun hnone => ?_, fun hnone => ?_, ?_, not_lt.mp htotal⟩
        · cases hnone
        · cases hnone
        · rw [length_payload]
          dsimp [OperationType.hasKey, OperationType.hasValue]
          omega
    | delete hid hdelete =>
        unfold deleteRecord at hdelete
        dsimp only at hdelete
        split_ifs at hdelete with hlong htotal
        obtain rfl := Except.ok.inj hdelete
        refine ⟨hid, fun hnone => ?_, fun _ => rfl, ?_, not_lt.mp htotal⟩
        · cases hnone
        · rw [length_payload]
          dsimp [OperationType.hasKey, OperationType.hasValue]
          omega
  · obtain ⟨trancId, type, key, value, recordLen⟩ := record
    rintro ⟨hid, hkey, hvalue, hlength, hle⟩
    rw [length_payload] at hlength
    dsimp only at hid hkey hvalue hlength hle
    cases type with
    | opCreate =>
        obtain rfl := hkey rfl
        obtain rfl := hvalue rfl
        obtain rfl : recordLen = headerSize := hlength
        exact Made.create hid
    | opCommit =>
        obtain rfl := hkey rfl
        obtain rfl := hvalue rfl
        obtain rfl : recordLen = headerSize := hlength
        exact Made.commit hid
    | opRollback =>
        obtain rfl := hkey rfl
        obtain rfl := hvalue rfl
        obtain rfl : recordLen = headerSize := hlength
        exact Made.rollback hid
    | opPut =>
        change recordLen = headerSize + (2 + key.length + (2 + value.length)) at hlength
        obtain rfl : recordLen = headerSize + 2 + 2 + key.length + value.length := by omega
        refine @Made.put trancId key value _ hid ?_
        rw [putRecord, if_neg (by omega)]
        exact if_neg (by omega)
    | opDelete =>
        obtain rfl := hvalue rfl
        change recordLen = headerSize + (2 + key.length + 0) at hlength
        obtain rfl : recordLen = headerSize + 2 + key.length := by omega
        refine @Made.delete trancId key _ hid ?_
        rw [deleteRecord, if_neg (by omega)]
        exact if_neg (by omega)

theorem length_encode (record : Record) :
    record.encode.length = headerSize + record.payload.length := by
  simp only [encode, List.length_append, length_toLe, headerSize]
  omega

private theorem decodeFields_eq_ok {recordLen : ℕ} {body : Bytes} {record : Record} :
    decodeFields recordLen body = .ok record ↔
      record.recordLen = recordLen ∧ record.trancId < 256 ^ 8 ∧
        (record.key.length ≤ uint16Max ∧ record.value.length ≤ uint16Max) ∧
        (record.operationType.hasKey = false → record.key = []) ∧
        (record.operationType.hasValue = false → record.value = []) ∧
        body = toLe 8 record.trancId ++
          (toLe 1 record.operationType.code ++ record.payload) := by
  unfold decodeFields
  constructor
  · intro hdecode
    split at hdecode
    next => cases hdecode
    next trancId behind hread =>
      obtain ⟨hid, rfl⟩ := readUint_eq_ok.mp hread
      split at hdecode
      next => cases hdecode
      next code rest hcodeRead =>
        obtain ⟨-, rfl⟩ := readUint_eq_ok.mp hcodeRead
        split at hdecode
        next => cases hdecode
        next type htype =>
          obtain rfl := OperationType.code_of_ofCode htype
          split at hdecode
          next => cases hdecode
          next key afterKey hkeyRead =>
            obtain ⟨hkeyLength, hkey, rfl⟩ := readStringIf_eq_ok.mp hkeyRead
            split at hdecode
            next => cases hdecode
            next value afterValue hvalueRead =>
              obtain ⟨hvalueLength, hvalue, rfl⟩ := readStringIf_eq_ok.mp hvalueRead
              split_ifs at hdecode with hrest
              obtain rfl := Except.ok.inj hdecode
              obtain rfl := not_not.mp hrest
              rw [List.append_nil]
              exact ⟨rfl, hid, ⟨hkeyLength, hvalueLength⟩, hkey, hvalue, rfl⟩
  · rintro ⟨rfl, hid, ⟨hkeyLength, hvalueLength⟩, hkey, hvalue, rfl⟩
    rw [readUint_eq_ok.mpr ⟨hid, rfl⟩]
    dsimp only
    have hcode : record.operationType.code < 256 ^ 1 := by
      cases record.operationType <;> decide
    rw [readUint_eq_ok.mpr ⟨hcode, rfl⟩]
    dsimp only
    rw [OperationType.ofCode_code]
    dsimp only
    rw [payload, readStringIf_eq_ok.mpr ⟨hkeyLength, hkey, rfl⟩]
    dsimp only
    have hlast := readStringIf_eq_ok.mpr ⟨hvalueLength, hvalue, (List.append_nil _).symm⟩
    rw [hlast]
    rfl

/-- One round reads exactly one record of a factory. -/
theorem decodeOne_eq_ok {data rest : Bytes} {record : Record} :
    decodeOne data = .ok (record, rest) ↔ record.Made ∧ data = record.encode ++ rest := by
  unfold decodeOne
  constructor
  · intro hdecode
    split at hdecode
    next => cases hdecode
    next recordLen behind hread =>
      obtain ⟨hlt, hdata⟩ := readUint_eq_ok.mp hread
      split_ifs at hdecode with hinvalid
      obtain ⟨hheader, hle⟩ := not_or.mp hinvalid
      cases hfields : decodeFields recordLen ((data.take recordLen).drop 2) with
      | error err =>
          rw [hfields] at hdecode
          cases hdecode
      | ok found =>
          rw [hfields] at hdecode
          obtain ⟨rfl, rfl⟩ := Prod.mk.inj (Except.ok.inj hdecode)
          obtain ⟨rfl, hid, -, hkey, hvalue, hbody⟩ := decodeFields_eq_ok.mp hfields
          have htwo : 2 ≤ found.recordLen := le_trans (by decide) (not_lt.mp hheader)
          have htake : data.take found.recordLen = found.encode := by
            have hfirst : (data.take found.recordLen).take 2 = toLe 2 found.recordLen := by
              rw [List.take_take, min_eq_left htwo, hdata, List.take_left' (length_toLe _ _)]
            rw [← List.take_append_drop 2 (data.take found.recordLen), hfirst, hbody]
            rfl
          have hlength : found.encode.length = found.recordLen := by
            rw [← htake, List.length_take_of_le (not_lt.mp hle)]
          refine ⟨made_iff.mpr ⟨hid, hkey, hvalue, ?_, Nat.le_of_lt_succ hlt⟩, ?_⟩
          · rw [← hlength, length_encode]
          · rw [← htake, List.take_append_drop]
  · rintro ⟨hmade, rfl⟩
    obtain ⟨hid, hkey, hvalue, hlength, hle⟩ := made_iff.mp hmade
    have hencode : record.encode.length = record.recordLen := by
      rw [length_encode, hlength]
    have hread : readUint 2 (record.encode ++ rest) = .ok (record.recordLen,
        toLe 8 record.trancId ++ (toLe 1 record.operationType.code ++ record.payload) ++ rest) := by
      rw [readUint_eq_ok, encode, List.append_assoc]
      exact ⟨Nat.lt_succ_of_le hle, rfl⟩
    have hsizes : record.key.length ≤ uint16Max ∧ record.value.length ≤ uint16Max := by
      rw [length_payload] at hlength
      constructor
      · by_cases hhas : record.operationType.hasKey = true
        · rw [if_pos hhas] at hlength
          omega
        · rw [hkey (Bool.eq_false_iff.mpr hhas)]
          exact Nat.zero_le _
      · by_cases hhas : record.operationType.hasValue = true
        · rw [if_pos hhas] at hlength
          omega
        · rw [hvalue (Bool.eq_false_iff.mpr hhas)]
          exact Nat.zero_le _
    have hfields : decodeFields record.recordLen (record.encode.drop 2) = .ok record := by
      apply decodeFields_eq_ok.mpr
      refine ⟨rfl, hid, hsizes, hkey, hvalue, ?_⟩
      rw [encode, List.drop_left' (length_toLe _ _)]
    rw [hread]
    dsimp only
    rw [List.take_left' hencode, List.drop_left' hencode, hfields, if_neg]
    · rfl
    · rw [List.length_append]
      omega

/-- Every record takes at least one byte. -/
theorem encode_ne_nil (record : Record) : record.encode ≠ [] := by
  rw [← List.length_pos_iff, length_encode]
  exact Nat.lt_of_lt_of_le (show 0 < headerSize by decide) (Nat.le_add_right _ _)

private theorem decodeLoop_nil {fuel : ℕ} {records : List Record} :
    decodeLoop fuel [] = .ok records ↔
      (∀ record ∈ records, record.Made) ∧ [] = encodeAll records := by
  have hrun : decodeLoop fuel [] = .ok [] := by
    unfold decodeLoop
    rfl
  rw [hrun]
  constructor
  · intro hnil
    obtain rfl := Except.ok.inj hnil
    exact ⟨fun _ hmem => absurd hmem List.not_mem_nil, rfl⟩
  · rintro ⟨-, hnil⟩
    cases records with
    | nil => rfl
    | cons record rest =>
        have happend := (List.append_eq_nil_iff.mp hnil.symm).1
        exact absurd happend record.encode_ne_nil

private theorem decodeLoop_eq_ok {fuel : ℕ} {data : Bytes} {records : List Record}
    (hfuel : data.length ≤ fuel) :
    decodeLoop fuel data = .ok records ↔
      (∀ record ∈ records, record.Made) ∧ data = encodeAll records := by
  induction fuel generalizing data records with
  | zero =>
      obtain rfl := List.length_eq_zero_iff.mp (Nat.le_zero.mp hfuel)
      exact decodeLoop_nil
  | succ fuel ih =>
      cases data with
      | nil => exact decodeLoop_nil
      | cons byte rest =>
          rw [decodeLoop]
          constructor
          · intro hdecode
            split at hdecode
            next => cases hdecode
            next record behind hone =>
              obtain ⟨hmade, hdata⟩ := decodeOne_eq_ok.mp hone
              have hshort : behind.length ≤ fuel := by
                have hlength := congrArg List.length hdata
                have hpos := List.length_pos_iff.mpr record.encode_ne_nil
                rw [List.length_append] at hlength
                omega
              cases hloop : decodeLoop fuel behind with
              | error err =>
                  rw [hloop] at hdecode
                  cases hdecode
              | ok found =>
                  rw [hloop] at hdecode
                  obtain rfl := Except.ok.inj hdecode
                  obtain ⟨hall, rfl⟩ := (ih hshort).mp hloop
                  exact ⟨List.forall_mem_cons.mpr ⟨hmade, hall⟩, hdata⟩
          · rintro ⟨hall, hdata⟩
            cases records with
            | nil => cases hdata
            | cons record others =>
                obtain ⟨hmade, hothers⟩ := List.forall_mem_cons.mp hall
                change byte :: rest = record.encode ++ encodeAll others at hdata
                have hone := decodeOne_eq_ok.mpr ⟨hmade, hdata⟩
                have hshort : (encodeAll others).length ≤ fuel := by
                  have hlength := congrArg List.length hdata
                  have hpos := List.length_pos_iff.mpr record.encode_ne_nil
                  rw [List.length_append] at hlength
                  omega
                rw [hone]
                dsimp only
                rw [(ih hshort).mpr ⟨hothers, rfl⟩]
                rfl

/-- `decode` returns some records exactly on their encoding. -/
theorem decode_eq_ok {data : Bytes} {records : List Record} :
    decode data = .ok records ↔
      (∀ record ∈ records, record.Made) ∧ data = encodeAll records :=
  decodeLoop_eq_ok le_rfl

/-! ## What is refused -/

private theorem readUint_throws {byteCount : ℕ} {input : Bytes} {err : Err}
    (hread : readUint byteCount input = .error err) : ∃ what, err = .runtimeError what := by
  unfold readUint at hread
  split_ifs at hread
  exact ⟨_, (Except.error.inj hread).symm⟩

private theorem readStringIf_throws {present : Bool} {input : Bytes} {err : Err}
    (hread : readStringIf present input = .error err) : ∃ what, err = .runtimeError what := by
  unfold readStringIf at hread
  split_ifs at hread
  unfold readString at hread
  split at hread
  next err' hlength =>
    obtain rfl := Except.error.inj hread
    exact readUint_throws hlength
  · split_ifs at hread
    exact ⟨_, (Except.error.inj hread).symm⟩

private theorem decodeFields_throws {recordLen : ℕ} {body : Bytes} {err : Err}
    (hdecode : decodeFields recordLen body = .error err) : ∃ what, err = .runtimeError what := by
  unfold decodeFields at hdecode
  split at hdecode
  next err' hread =>
    obtain rfl := Except.error.inj hdecode
    exact readUint_throws hread
  next trancId behind hid =>
    split at hdecode
    next err' hread =>
      obtain rfl := Except.error.inj hdecode
      exact readUint_throws hread
    next code rest hcode =>
      split at hdecode
      next => exact ⟨_, (Except.error.inj hdecode).symm⟩
      next type htype =>
        split at hdecode
        next err' hread =>
          obtain rfl := Except.error.inj hdecode
          exact readStringIf_throws hread
        next key afterKey hkey =>
          split at hdecode
          next err' hread =>
            obtain rfl := Except.error.inj hdecode
            exact readStringIf_throws hread
          next value afterValue hvalue =>
            split_ifs at hdecode
            exact ⟨_, (Except.error.inj hdecode).symm⟩

private theorem decodeOne_throws {data : Bytes} {err : Err}
    (hdecode : decodeOne data = .error err) : ∃ what, err = .runtimeError what := by
  unfold decodeOne at hdecode
  split at hdecode
  next err' hread =>
    obtain rfl := Except.error.inj hdecode
    exact readUint_throws hread
  next recordLen behind hread =>
    split_ifs at hdecode
    · exact ⟨_, (Except.error.inj hdecode).symm⟩
    · cases hfields : decodeFields recordLen ((data.take recordLen).drop 2) with
      | ok record =>
          rw [hfields] at hdecode
          cases hdecode
      | error err' =>
          rw [hfields] at hdecode
          obtain rfl := Except.error.inj hdecode
          exact decodeFields_throws hfields

private theorem decodeLoop_throws {fuel : ℕ} {data : Bytes} (hfuel : data.length ≤ fuel)
    {err : Err} (hdecode : decodeLoop fuel data = .error err) :
    ∃ what, err = .runtimeError what := by
  induction fuel generalizing data with
  | zero =>
      obtain rfl := List.length_eq_zero_iff.mp (Nat.le_zero.mp hfuel)
      cases hdecode
  | succ fuel ih =>
      cases data with
      | nil => cases hdecode
      | cons byte rest =>
          rw [decodeLoop] at hdecode
          split at hdecode
          next err' hone =>
            obtain rfl := Except.error.inj hdecode
            exact decodeOne_throws hone
          next record behind hone =>
            obtain ⟨-, hdata⟩ := decodeOne_eq_ok.mp hone
            have hshort : behind.length ≤ fuel := by
              have hlength := congrArg List.length hdata
              have hpos := List.length_pos_iff.mpr record.encode_ne_nil
              rw [List.length_append] at hlength
              omega
            cases hloop : decodeLoop fuel behind with
            | ok found =>
                rw [hloop] at hdecode
                cases hdecode
            | error err' =>
                rw [hloop] at hdecode
                obtain rfl := Except.error.inj hdecode
                exact ih hshort hloop

/-- Of an encoding only the cuts between two records decode. -/
theorem prefix_of_encodeAll {records found : List Record} {rest : Bytes}
    (hrecords : ∀ record ∈ records, record.Made) (hfound : ∀ record ∈ found, record.Made)
    (hsplit : encodeAll records = encodeAll found ++ rest) : found <+: records := by
  induction found generalizing records with
  | nil => exact List.nil_prefix
  | cons record others ih =>
      obtain ⟨hmade, hothers⟩ := List.forall_mem_cons.mp hfound
      change encodeAll records = record.encode ++ encodeAll others ++ rest at hsplit
      rw [List.append_assoc] at hsplit
      have hone := decodeOne_eq_ok.mpr ⟨hmade, hsplit⟩
      cases records with
      | nil =>
          have hnil := (List.append_eq_nil_iff.mp hsplit.symm).1
          exact absurd hnil record.encode_ne_nil
      | cons first behind =>
          obtain ⟨hfirst, hbehind⟩ := List.forall_mem_cons.mp hrecords
          have hsame : encodeAll (first :: behind) = first.encode ++ encodeAll behind := rfl
          rw [decodeOne_eq_ok.mpr ⟨hfirst, hsame⟩] at hone
          obtain ⟨rfl, hrest⟩ := Prod.mk.inj (Except.ok.inj hone)
          exact List.prefix_cons_inj _ |>.mpr (ih hbehind hothers hrest)

/-- Decoding inverts encoding, accepts nothing else, and of a truncated log only what ends
with a record. -/
theorem decode_encode :
    (∀ records : List Record, (∀ record ∈ records, record.Made) →
      decode (encodeAll records) = .ok records) ∧
    (∀ data : Bytes, (∃ what, decode data = .error (.runtimeError what)) ∨
      ∃ records, decode data = .ok records ∧ (∀ record ∈ records, record.Made) ∧
        encodeAll records = data) ∧
    ∀ records : List Record, (∀ record ∈ records, record.Made) → ∀ cut found,
      decode ((encodeAll records).take cut) = .ok found →
        found <+: records ∧ (encodeAll records).take cut = encodeAll found := by
  refine ⟨fun records hmade => decode_eq_ok.mpr ⟨hmade, rfl⟩, fun data => ?_,
    fun records hmade cut found hdecode => ?_⟩
  · cases hdecode : decode data with
    | error err =>
        obtain ⟨what, rfl⟩ := decodeLoop_throws le_rfl hdecode
        exact Or.inl ⟨what, rfl⟩
    | ok records =>
        obtain ⟨hmade, hdata⟩ := decode_eq_ok.mp hdecode
        exact Or.inr ⟨records, rfl, hmade, hdata.symm⟩
  · obtain ⟨hfound, hcut⟩ := decode_eq_ok.mp hdecode
    refine ⟨@prefix_of_encodeAll records found ((encodeAll records).drop cut) hmade hfound ?_,
      hcut⟩
    rw [← hcut, List.take_append_drop]

end Record

end KopiDb
