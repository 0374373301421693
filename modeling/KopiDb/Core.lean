import KopiDb.Lib.SortedVersions

/-!
# Records, errors and configuration

The vocabulary shared by every layer of the store.  A record is one version of
a key; an empty value marks a deletion, and the empty key is reserved for the
commit markers of the transaction layer.
-/

namespace KopiDb

instance byteNeZero : NeZero 256 := ⟨by decide⟩

/-- `std::string`, compared as `std::string` compares: byte by byte. -/
abbrev Bytes := List (Fin 256)

instance bytesLawfulBEq : LawfulBEq Bytes := inferInstance

/-- A stored record; `txid` is the record's `tranc_id_`. -/
abbrev Entry := Version Bytes Bytes

/-- An exception of the source: its type and its text. -/
inductive Err where
  | lengthError (what : String)
  | runtimeError (what : String)
  | logicError (what : String)
  | outOfRange (what : String)
  | overflowError (what : String)
  /-- An index past the end of a buffer. -/
  | outOfBounds
  /-- A size computation that leaves the range of its type. -/
  | sizeWraps
  /-- An access through a null pointer. -/
  | nullAccess
  /-- A recursion that never comes back. -/
  | diverges
  deriving DecidableEq, Repr

/-- The values of `TomlConfig` and of the filter parameters derived from it that
the engine reads.  `stdHash` stands for `std::hash<std::string>`, and the last two
functions stand for the file system: whether creating the file of an id throws, and
whether a merge into a level throws when it reads on behind a record. -/
structure Config where
  lsmPerMemSizeLimit : ℕ
  lsmTolMemSizeLimit : ℕ
  lsmBlockSize : ℕ
  lsmSstLevelRatio : ℕ
  bloomNumBits : ℕ
  bloomNumHashes : ℕ
  stdHash : Bytes → ℕ
  createFails : ℕ → Bool
  readFails : ℕ → Entry → Bool
  bloomNumBits_pos : 0 < bloomNumBits

/-- `UINT16_MAX` -/
def uint16Max : ℕ := 65535

/-- The bytes a record is charged in the memory tables: key, value and number. -/
def memSize (entry : Entry) : ℕ := entry.key.length + entry.value.length + 8

/-- The bytes of a record inside a block: two length fields, key, value, number. -/
def entrySize (entry : Entry) : ℕ :=
  2 + entry.key.length + 2 + entry.value.length + 8

/-- Go on after a call that may throw; what the call did to the state before it
threw remains. -/
def andThen {σ α β : Type} (first : σ × Except Err α)
    (rest : σ → α → σ × Except Err β) : σ × Except Err β :=
  match first.2 with
  | .error err => (first.1, .error err)
  | .ok value => rest first.1 value

/-- A rest that cannot throw leaves it to the first call. -/
theorem andThen_pure {σ α β : Type} (first : σ × Except Err α) (value : β) :
    (andThen first fun state _ => (state, .ok value)) = (first.1, first.2.map fun _ => value) := by
  obtain ⟨state, outcome⟩ := first
  cases outcome with
  | error err => rfl
  | ok result => rfl

/-- Either the first call throws, or the rest runs after it. -/
theorem andThen_cases {σ α β : Type} (first : σ × Except Err α)
    (rest : σ → α → σ × Except Err β) :
    (∃ err, first.2 = .error err ∧ andThen first rest = (first.1, .error err)) ∨
      ∃ value, first.2 = .ok value ∧ andThen first rest = rest first.1 value := by
  unfold andThen
  cases hfirst : first.2 with
  | error err => exact Or.inl ⟨err, rfl, rfl⟩
  | ok value => exact Or.inr ⟨value, rfl, rfl⟩

end KopiDb
