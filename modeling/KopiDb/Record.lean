import KopiDb.Core

/-!
# Log records

The records of the write-ahead log.  Every transaction begins with a `CREATE`, logs
its operations and ends with a `COMMIT`.
-/

namespace KopiDb

inductive OperationType where
  | opCreate
  | opCommit
  | opRollback
  | opPut
  | opDelete
  deriving DecidableEq, Repr

/-- `Record`; operations without a key or a value keep them empty. -/
structure Record where
  trancId : ℕ
  operationType : OperationType
  key : Bytes
  value : Bytes
  recordLen : ℕ
  deriving DecidableEq, Repr

namespace Record

/-- The bytes of the length, the number and the type of a record. -/
def headerSize : ℕ := 2 + 8 + 1

def createRecord (trancId : ℕ) : Record := ⟨trancId, .opCreate, [], [], headerSize⟩

def commitRecord (trancId : ℕ) : Record := ⟨trancId, .opCommit, [], [], headerSize⟩

def rollbackRecord (trancId : ℕ) : Record := ⟨trancId, .opRollback, [], [], headerSize⟩

def putRecord (trancId : ℕ) (key value : Bytes) : Except Err Record :=
  if key.length > uint16Max ∨ value.length > uint16Max then
    .error (.lengthError "Record::putRecord: key or value exceeds uint16_t length")
  else
    let totalLength := headerSize + 2 + 2 + key.length + value.length
    if totalLength > uint16Max then
      .error (.lengthError "Record::putRecord: total record length exceeds uint16_t")
    else .ok ⟨trancId, .opPut, key, value, totalLength⟩

def deleteRecord (trancId : ℕ) (key : Bytes) : Except Err Record :=
  if key.length > uint16Max then
    .error (.lengthError "Record::deleteRecord: key exceeds uint16_t length")
  else
    let totalLength := headerSize + 2 + key.length
    if totalLength > uint16Max then
      .error (.lengthError "Record::deleteRecord: total record length exceeds uint16_t")
    else .ok ⟨trancId, .opDelete, key, [], totalLength⟩

/-- A record that ends its transaction. -/
def isTerminal (record : Record) : Bool :=
  decide (record.operationType = .opCommit ∨ record.operationType = .opRollback)

/-- What a data record writes; a deletion writes the empty value. -/
def isData (record : Record) : Bool :=
  decide (record.operationType = .opPut ∨ record.operationType = .opDelete)

theorem putRecord_eq_ok {trancId : ℕ} {key value : Bytes} {record : Record}
    (hput : putRecord trancId key value = .ok record) :
    record.trancId = trancId ∧ record.operationType = .opPut ∧ record.key = key ∧
      record.value = value := by
  unfold putRecord at hput
  dsimp only at hput
  split_ifs at hput
  obtain rfl := Except.ok.inj hput
  exact ⟨rfl, rfl, rfl, rfl⟩

theorem deleteRecord_eq_ok {trancId : ℕ} {key : Bytes} {record : Record}
    (hdelete : deleteRecord trancId key = .ok record) :
    record.trancId = trancId ∧ record.operationType = .opDelete ∧ record.key = key ∧
      record.value = [] := by
  unfold deleteRecord at hdelete
  dsimp only at hdelete
  split_ifs at hdelete
  obtain rfl := Except.ok.inj hdelete
  exact ⟨rfl, rfl, rfl, rfl⟩

end Record

end KopiDb
