import KopiDb.EngineRuns
import KopiDb.SstFile
import KopiDb.Wal

/-!
# Table files in the data directory

The engine keeps every table in a file whose name carries the id and the level.  This module
lists the file operations of each engine operation in their order, up to the point where it
throws, and says what they do to the directory.
-/

namespace KopiDb

/-! ## File names -/

/-- `sst_` -/
def sstPrefix : Bytes := [115, 115, 116, 95]

/-- The id with `setw(32)` and `setfill('0')`. -/
def paddedId (sstId : ℕ) : Bytes :=
  List.replicate (32 - (decimal sstId).length) 48 ++ decimal sstId

/-- `get_sst_path` without the directory. -/
def sstName (sstId level : ℕ) : Bytes := sstPrefix ++ (paddedId sstId ++ 46 :: decimal level)

/-- `isspace` -/
def isSpace (char : Fin 256) : Bool := decide (char = 32 ∨ (9 ≤ char ∧ char ≤ 13))

/-- `std::stoull`: white space, a sign and the digits that follow. -/
def stoull (text : Bytes) : Except Err ℕ :=
  let text := text.dropWhile isSpace
  let negative := decide (text.head? = some 45)
  let text := if text.head? = some 43 ∨ text.head? = some 45 then text.drop 1 else text
  let digits := text.takeWhile isDigit
  if digits.isEmpty then .error (.logicError "stoull: no conversion")
  else
    let number := parseDecimal digits
    if number > uint64Max then .error (.outOfRange "stoull")
    else .ok (if negative then (2 ^ 64 - number) % 2 ^ 64 else number)

/-- The id and the level in the name of a table file; other names are passed over. -/
def sstNumbers (name : Bytes) : Except Err (Option (ℕ × ℕ)) :=
  if sstPrefix.isPrefixOf name then
    match name.findIdx? fun char => decide (char = 46) with
    | none => .ok none
    | some dotPos =>
        if dotPos = name.length - 1 then .ok none
        else do
          let sstId ← stoull ((name.drop 4).take (dotPos - 4))
          let level ← stoull (name.drop (dotPos + 1))
          return some (sstId, level)
  else .ok none

theorem parseDecimal_paddedId (sstId : ℕ) : parseDecimal (paddedId sstId) = sstId := by
  have hzeros : ∀ count, (List.replicate count (48 : Fin 256)).foldl
      (fun number char => 10 * number + (char.val - 48)) 0 = 0 := by
    intro count
    induction count with
    | zero => rfl
    | succ count ih => rw [List.replicate_succ, List.foldl_cons]; exact ih
  rw [paddedId, parseDecimal, List.foldl_append, hzeros]
  exact parseDecimal_decimal sstId

theorem isDigit_paddedId (sstId : ℕ) :
    paddedId sstId ≠ [] ∧ ∀ char ∈ paddedId sstId, isDigit char = true := by
  obtain ⟨hne, hdigits⟩ := isDigit_decimal sstId
  refine ⟨List.append_ne_nil_of_right_ne_nil _ hne, ?_⟩
  intro char hmem
  rcases List.mem_append.mp hmem with hmem | hmem
  · rw [List.eq_of_mem_replicate hmem]
    rfl
  · exact List.all_eq_true.mp hdigits char hmem

/-- A run of digits is its number. -/
theorem stoull_digits {digits : Bytes} (hne : digits ≠ [])
    (hdigits : ∀ char ∈ digits, isDigit char = true) (hrange : parseDecimal digits ≤ uint64Max) :
    stoull digits = .ok (parseDecimal digits) := by
  obtain ⟨first, rest, rfl⟩ := List.exists_cons_of_ne_nil hne
  have hfirst := of_decide_eq_true (hdigits first List.mem_cons_self)
  have hspace : isSpace first = false := by
    rw [isSpace, decide_eq_false_iff_not]
    omega
  have hsigns : first ≠ 43 ∧ first ≠ 45 := by omega
  have hdrop : (first :: rest).dropWhile isSpace = first :: rest := by
    rw [List.dropWhile_cons_of_neg (by rw [hspace]; exact Bool.false_ne_true)]
  have hhead : (first :: rest).head? = some first := rfl
  unfold stoull
  dsimp only
  rw [hdrop, hhead]
  have hsigned : ¬((some first : Option (Fin 256)) = some 43 ∨ some first = some 45) := by
    rw [Option.some.injEq, Option.some.injEq]
    exact not_or.mpr hsigns
  have hpositive : ¬(decide ((some first : Option (Fin 256)) = some 45) = true) := by
    rw [decide_eq_true_iff, Option.some.injEq]
    exact hsigns.2
  rw [if_neg hsigned, List.takeWhile_eq_self_iff.mpr hdigits, if_neg, if_neg (not_lt.mpr hrange),
    if_neg hpositive]
  exact Bool.false_ne_true

/-- The numbers of a file are found from its name. -/
theorem sstNumbers_sstName {sstId level : ℕ} (hid : sstId ≤ uint64Max)
    (hlevel : level ≤ uint64Max) :
    sstNumbers (sstName sstId level) = .ok (some (sstId, level)) := by
  obtain ⟨hidNe, hidDigits⟩ := isDigit_paddedId sstId
  obtain ⟨hlevelNe, hlevelDigits⟩ := isDigit_decimal level
  have hdigitDot : ∀ char : Fin 256, isDigit char = true → ¬decide (char = 46) = true := by
    intro char hdigit hdot
    rw [of_decide_eq_true hdot] at hdigit
    exact absurd hdigit (by decide)
  have hdot : (sstName sstId level).findIdx? (fun char => decide (char = 46)) =
      some ((paddedId sstId).length + 4) := by
    have hprefix : sstPrefix.findIdx? (fun char => decide (char = 46)) = none := by decide
    have hpadded : (paddedId sstId).findIdx? (fun char => decide (char = 46)) = none :=
      List.findIdx?_eq_none_iff.mpr fun char hmem =>
        Bool.eq_false_iff.mpr (hdigitDot char (hidDigits char hmem))
    rw [sstName, List.findIdx?_append, hprefix, Option.none_or, List.findIdx?_append, hpadded,
      Option.none_or, List.findIdx?_cons, if_pos (by decide), Option.map_some, Option.map_some,
      Nat.zero_add]
    rfl
  have hdrop : (sstName sstId level).drop 4 = paddedId sstId ++ 46 :: decimal level :=
    @List.drop_left' _ sstPrefix _ 4 rfl
  have hprefixed : sstPrefix.isPrefixOf (sstName sstId level) = true :=
    List.isPrefixOf_iff_prefix.mpr (List.prefix_append _ _)
  have hlength : (sstName sstId level).length =
      (paddedId sstId).length + 4 + ((decimal level).length + 1) := by
    have hprefix : sstPrefix.length = 4 := rfl
    rw [sstName, List.length_append, List.length_append, List.length_cons, hprefix]
    omega
  have hlast : ¬(paddedId sstId).length + 4 = (sstName sstId level).length - 1 := by
    have hpos := List.length_pos_iff.mpr hlevelNe
    omega
  have hidPart : ((sstName sstId level).drop 4).take ((paddedId sstId).length + 4 - 4) =
      paddedId sstId := by
    rw [hdrop, Nat.add_sub_cancel, List.take_left]
  have hlevelPart : (sstName sstId level).drop ((paddedId sstId).length + 4 + 1) =
      decimal level := by
    rw [Nat.add_comm (paddedId sstId).length 4, Nat.add_assoc, ← List.drop_drop, hdrop,
      ← List.drop_drop, List.drop_left]
    rfl
  have hidNumber := stoull_digits hidNe hidDigits (by rwa [parseDecimal_paddedId])
  have hlevelNumber := stoull_digits hlevelNe (List.all_eq_true.mp hlevelDigits)
    (by rwa [parseDecimal_decimal])
  rw [sstNumbers, if_pos hprefixed, hdot]
  dsimp only
  rw [if_neg hlast, hidPart, hlevelPart, hidNumber, hlevelNumber, parseDecimal_paddedId,
    parseDecimal_decimal]
  rfl

/-- Different tables have different names. -/
theorem sstName_inj {sstId level sstId' level' : ℕ}
    (hname : sstName sstId level = sstName sstId' level') : sstId = sstId' ∧ level = level' := by
  have hsplit : ∀ sstId level : ℕ,
      (paddedId sstId ++ 46 :: decimal level).takeWhile isDigit = paddedId sstId := by
    intro sstId level
    rw [List.takeWhile_append_of_pos (isDigit_paddedId sstId).2,
      List.takeWhile_cons_of_neg (by decide), List.append_nil]
  have hrest := List.append_cancel_left hname
  have hpadded := congrArg (List.takeWhile isDigit) hrest
  rw [hsplit, hsplit] at hpadded
  have hid := congrArg parseDecimal hpadded
  rw [parseDecimal_paddedId, parseDecimal_paddedId] at hid
  rw [hpadded] at hrest
  have hlevel := congrArg parseDecimal (List.cons.inj (List.append_cancel_left hrest)).2
  rw [parseDecimal_decimal, parseDecimal_decimal] at hlevel
  exact ⟨hid, hlevel⟩

/-! ## File operations -/

/-- What the engine does to the files of its tables. -/
inductive FileOp where
  /-- `create_and_write` that returns. -/
  | write (sstId level : ℕ) (sst : SST)
  /-- `create_and_write` that throws. -/
  | fail (sstId level : ℕ) (sst : SST)
  /-- `del_sst` -/
  | remove (sstId level : ℕ)
  /-- `clear` removes every regular file. -/
  | removeAll

/-- The file operations of `build`, which comes to writing only with all bytes at hand. -/
def SSTBuilder.fileOps (builder : SSTBuilder) (sstId level : ℕ) : List FileOp :=
  match { builder with createFails := fun _ => false }.build sstId with
  | .error _ => []
  | .ok sst =>
      if builder.createFails sstId then [.fail sstId level sst] else [.write sstId level sst]

/-- The file operations of a loop over records, up to the round that throws. -/
def loopOps {σ ε α : Type} (body : σ → α → Option α → Except ε σ)
    (roundOps : σ → α → Option α → List FileOp) : List α → σ → List FileOp
  | [], _ => []
  | record :: rest, state =>
      roundOps state record rest.head? ++
        match body state record rest.head? with
        | .error _ => []
        | .ok state => loopOps body roundOps rest state

/-- The file operations of `flush_last`. -/
def MemTable.flushLastOps (config : Config) (mem : MemTable) (sstId : ℕ) : List FileOp :=
  let mem := if mem.frozenTables.isEmpty then mem.frozenCurTable_ else mem
  match mem.frozenTables.getLast? with
  | none => []
  | some table =>
      match (SSTBuilder.new config).addAll table.flush with
      | .error _ => []
      | .ok builder => builder.fileOps sstId 0

namespace Engine

/-- The file operations of one round of `gen_sst_from_iter`. -/
def genStepOps (config : Config) (targetSstSize targetLevel : ℕ) (state : GenState)
    (entry : Entry) (following : Option Entry) : List FileOp :=
  match state.builder.add entry.key entry.value entry.txid with
  | .error _ => []
  | .ok builder =>
      if config.readFails targetLevel entry then []
      else
        let nextIsSameKey := following.any fun other => decide (other.key = entry.key)
        if !nextIsSameKey && decide (builder.estimatedSize ≥ targetSstSize) then
          builder.fileOps state.engine.nextSstId targetLevel
        else []

/-- The file operations of `gen_sst_from_iter`. -/
def genOps {ι : Type} [Cursor ι Entry] (config : Config) (engine : Engine) (iter : ι)
    (targetSstSize targetLevel : ℕ) : List FileOp :=
  let start : GenState := ⟨engine, [], SSTBuilder.new config, false⟩
  let body := genStep config targetSstSize targetLevel
  loopOps body (genStepOps config targetSstSize targetLevel) (Cursor.toList iter) start ++
    match Cursor.forEach body iter start with
    | .error _ => []
    | .ok state =>
        if state.hasPendingEntries then
          state.builder.fileOps state.engine.nextSstId targetLevel
        else []

/-- The file operations of `full_l0_l1_compact` and `full_common_compact`. -/
def mergeOps (config : Config) (engine : Engine) (srcLevel : ℕ) : List FileOp :=
  match (engine.level srcLevel).mapM engine.sstOf,
      (engine.level (srcLevel + 1)).mapM engine.sstOf with
  | .ok lxSsts, .ok lySsts =>
      let oldLyBegin := ConcactIterator.new lySsts 0 true skipNothing
      if srcLevel = 0 then
        let l0Iters := lxSsts.map fun sst => SstIterator.begin sst 0 true skipNothing
        genOps config engine
          (TwoMergeIterator.new (mergeSstIterator l0Iters true) oldLyBegin 0 true)
          (config.lsmPerMemSizeLimit * config.lsmSstLevelRatio) 1
      else
        genOps config engine
          (TwoMergeIterator.new (ConcactIterator.new lxSsts 0 true skipNothing) oldLyBegin 0 true)
          (getSstSize config (srcLevel + 1)) (srcLevel + 1)
  | _, _ => []

/-- The level in the path of a table, which its file object keeps. -/
def pathLevel (engine : Engine) (sstId : ℕ) : ℕ :=
  ((engine.paths.find? fun path => path.1 = sstId).map Prod.snd).getD 0

/-- Delete the files of tables. -/
def removeOps (engine : Engine) (ids : List ℕ) : List FileOp :=
  ids.map fun id => .remove id (engine.pathLevel id)

/-- The file operations of `full_compact`. -/
def fullCompactOps (config : Config) : ℕ → Engine → ℕ → List FileOp
  | 0, _, _ => []
  | fuel + 1, engine, srcLevel =>
      (if (engine.level (srcLevel + 1)).length ≥ config.lsmSstLevelRatio then
        fullCompactOps config fuel engine (srcLevel + 1)
      else []) ++
        match makeRoom config fuel engine srcLevel with
        | (_, .error _) => []
        | (engine, .ok _) =>
            mergeOps config engine srcLevel ++
              match mergeLevels config engine srcLevel with
              | (_, .error _) => []
              | (engine, .ok _) =>
                  removeOps engine (engine.level srcLevel ++ engine.level (srcLevel + 1))

def compactOps (config : Config) (engine : Engine) (srcLevel : ℕ) : List FileOp :=
  fullCompactOps config (engine.levelSstIds.length + 1) engine srcLevel

def compactFullL0Ops (config : Config) (engine : Engine) : List FileOp :=
  if engine.levelSstIds ≠ [] ∧ (engine.level 0).length ≥ config.lsmSstLevelRatio then
    engine.compactOps config 0
  else []

/-- The file operations of `flush`. -/
def flushOps (config : Config) (engine : Engine) : List FileOp :=
  if engine.memtable.getTotalSize = 0 then []
  else
    engine.compactFullL0Ops config ++
      match engine.compactFullL0 config with
      | (_, .error _) => []
      | (engine, .ok _) => engine.memtable.flushLastOps config engine.nextSstId

/-- The file operations at the end of every write. -/
def flushIfFullOps (config : Config) (engine : Engine) : List FileOp :=
  if engine.memtable.getTotalSize ≥ config.lsmTolMemSizeLimit then engine.flushOps config
  else []

end Engine

/-- The file operations of an engine operation. -/
def EngineOp.fileOps (config : Config) (engine : Engine) (op : EngineOp) : List FileOp :=
  match op with
  | .put .. | .putBatch .. | .remove .. | .removeBatch .. =>
      Engine.flushIfFullOps config
        { engine with memtable := Engine.writtenMemtable config engine op }
  | .freeze => []
  | .flush => engine.flushOps config
  | .compact srcLevel => engine.compactOps config srcLevel
  | .clear => [.removeAll]

/-- The file operations of a sequence of operations, up to the one that throws. -/
def runFileOps (config : Config) : Engine → List EngineOp → List FileOp
  | _, [] => []
  | engine, op :: rest =>
      op.fileOps config engine ++
        match op.run config engine with
        | (_, .error _) => []
        | (engine, .ok _) => runFileOps config engine rest

/-- The engine after operations that may throw. -/
def runAll (config : Config) (engine : Engine) (ops : List EngineOp) : Engine :=
  ops.foldl (fun engine op => (op.run config engine).1) engine

/-- The file operations of operations that may throw. -/
def runAllFileOps (config : Config) : Engine → List EngineOp → List FileOp
  | _, [] => []
  | engine, op :: rest =>
      op.fileOps config engine ++ runAllFileOps config (op.run config engine).1 rest

/-! ## Effect on the directory -/

/-- What a failed `create_and_write` leaves, by the id of the table: a number of bytes, or
nothing when the file could not be created. -/
abbrev Leftover := ℕ → Option ℕ

def Directory.clear (dir : Directory) : Directory :=
  ⟨dir.entries.filter fun entry => entry.2.isNone, dir.sorted.filter _⟩

def FileOp.apply (config : Config) (params : BloomParams) (leftover : Leftover)
    (dir : Directory) : FileOp → Directory
  | .write sstId level sst => dir.insert (sstName sstId level) (some (sst.fileBytes config params))
  | .fail sstId level sst =>
      match leftover sstId with
      | none => dir
      | some count =>
          dir.insert (sstName sstId level) (some ((sst.fileBytes config params).take count))
  | .remove sstId level => dir.erase (sstName sstId level)
  | .removeAll => dir.clear

/-- The directory after file operations. -/
def Directory.applyAll (config : Config) (params : BloomParams) (leftover : Leftover)
    (dir : Directory) (ops : List FileOp) : Directory :=
  ops.foldl (FileOp.apply config params leftover) dir

/-- The data directory after a sequence of operations on an empty one. -/
def dataDir (config : Config) (params : BloomParams) (leftover : Leftover)
    (ops : List EngineOp) : Directory :=
  (∅ : Directory).applyAll config params leftover (runFileOps config Engine.new ops)

end KopiDb
