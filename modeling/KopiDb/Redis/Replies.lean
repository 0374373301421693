import KopiDb.Lib.Framed
import KopiDb.Redis.Exceptions
import KopiDb.Redis.Resp

/-!
# Replies on the wire

A client may send requests without waiting, and reads the replies one after another.  It can
do that as long as every reply is one value of the protocol.
-/

namespace KopiDb.Redis

/-! ## Values of the protocol -/

inductive RespReply where
  | status (text : Bytes)
  | failure (text : Bytes)
  | number (value : ℤ)
  | bulk (value : Bytes)
  | nil
  | array (values : List Bytes)
  deriving DecidableEq

/-- Text that fits on one line. -/
def OneLine (text : Bytes) : Prop := 13 ∉ text ∧ 10 ∉ text

instance (text : Bytes) : Decidable (OneLine text) := inferInstanceAs (Decidable (_ ∧ _))

namespace RespReply

def encode : RespReply → Bytes
  | status text => ascii "+" ++ text ++ ascii "\r\n"
  | failure text => ascii "-" ++ text ++ ascii "\r\n"
  | number value => intReply value
  | bulk value => bulkReply value
  | nil => nilReply
  | array values => arrayReply values

def Fits : RespReply → Prop
  | status text => OneLine text
  | failure text => OneLine text
  | _ => True

end RespReply

/-! ## The client -/

/-- The text up to the end of the line. -/
def readLine (word : Bytes) : Option (Bytes × Bytes) :=
  match word.dropWhile fun char => decide (char ≠ 13) with
  | 13 :: 10 :: rest => some (word.takeWhile fun char => decide (char ≠ 13), rest)
  | _ => none

def natural (line : Bytes) : Option ℕ :=
  if line ≠ [] ∧ line.all isDigit = true then some (parseDecimal line) else none

def integer (line : Bytes) : Option ℤ :=
  match line with
  | 45 :: digits => (natural digits).map fun number : ℕ => -(number : ℤ)
  | digits => (natural digits).map fun number : ℕ => (number : ℤ)

/-- So many bytes and the end of the line. -/
def readBytes (len : ℕ) (word : Bytes) : Option (Bytes × Bytes) :=
  match word.drop len with
  | 13 :: 10 :: rest => some (word.take len, rest)
  | _ => none

def readBulk (word : Bytes) : Option (Bytes × Bytes) :=
  match word with
  | 36 :: word =>
      (readLine word).bind fun line => (natural line.1).bind fun len => readBytes len line.2
  | _ => none

namespace RespReply

def read (word : Bytes) : Option (RespReply × Bytes) :=
  match word with
  | 43 :: word => (readLine word).map fun line => (status line.1, line.2)
  | 45 :: word => (readLine word).map fun line => (failure line.1, line.2)
  | 58 :: word => (readLine word).bind fun line =>
      (integer line.1).map fun value => (number value, line.2)
  | 42 :: word => (readLine word).bind fun line => (natural line.1).bind fun count =>
      (Framed.readMany readBulk count line.2).map fun values => (array values.1, values.2)
  | word =>
      if nilReply <+: word then some (nil, word.drop nilReply.length)
      else (readBulk word).map fun value => (bulk value.1, value.2)

/-- All replies of a connection. -/
def readAll (word : Bytes) : Option (List RespReply) := Framed.readAll read word.length word

end RespReply

theorem readLine_append {line : Bytes} (hline : 13 ∉ line) (rest : Bytes) :
    readLine (line ++ (ascii "\r\n" ++ rest)) = some (line, rest) := by
  have hkeep : ∀ char ∈ line, decide (char ≠ 13) = true := by
    intro char hmem
    rw [decide_eq_true_iff]
    rintro rfl
    exact hline hmem
  have hend : ascii "\r\n" = [13, 10] := by decide
  rw [readLine, hend, List.dropWhile_append_of_pos hkeep, List.takeWhile_append_of_pos hkeep]
  simp

theorem return_not_mem_decimal (number : ℕ) : 13 ∉ decimal number := by
  intro hmem
  have hdigit := List.all_eq_true.mp (isDigit_decimal number).2 13 hmem
  revert hdigit
  decide

theorem natural_decimal (number : ℕ) : natural (decimal number) = some number := by
  rw [natural, if_pos (isDigit_decimal number), parseDecimal_decimal]

theorem integer_toDecimal (number : ℤ) : integer (toDecimal number) = some number := by
  have hdigit : ∀ digits : ℕ, integer (decimal digits) = some (digits : ℤ) := by
    intro digits
    unfold integer
    split
    next rest hminus =>
      have hfirst : isDigit 45 = true := List.all_eq_true.mp (isDigit_decimal digits).2 45
        (hminus ▸ List.mem_cons_self)
      exact absurd hfirst (by decide)
    next => rw [natural_decimal]; rfl
  rw [toDecimal]
  split_ifs with hnegative
  · rw [integer, natural_decimal, Option.map_some]
    congr 1
    omega
  · rw [hdigit]
    congr 1
    omega

theorem return_not_mem_toDecimal (number : ℤ) : 13 ∉ toDecimal number := by
  rw [toDecimal]
  split_ifs
  · exact List.not_mem_cons_of_ne_of_not_mem (by decide) (return_not_mem_decimal _)
  · exact return_not_mem_decimal _

theorem readsBack_bulk (value : Bytes) : Framed.ReadsBack readBulk bulkReply value := by
  intro rest
  have hsplit : bulkReply value ++ rest =
      36 :: (decimal value.length ++ (ascii "\r\n" ++ (value ++ (ascii "\r\n" ++ rest)))) := by
    rw [bulkReply, show ascii "$" = [36] by decide]
    simp only [List.append_assoc, List.cons_append, List.nil_append]
  have hend : ascii "\r\n" = [13, 10] := by decide
  rw [hsplit]
  simp only [readBulk]
  rw [readLine_append (return_not_mem_decimal _), Option.bind_some, natural_decimal,
    Option.bind_some, readBytes, List.drop_left, List.take_left, hend]
  rfl

namespace RespReply

/-- A reply is read back, whatever comes behind it. -/
theorem readsBack {reply : RespReply} (hfits : reply.Fits) :
    Framed.ReadsBack read encode reply := by
  intro rest
  cases reply with
  | status text =>
      have hsplit : (status text).encode ++ rest = 43 :: (text ++ (ascii "\r\n" ++ rest)) := by
        rw [encode, show ascii "+" = [43] by decide]
        simp only [List.append_assoc, List.cons_append, List.nil_append]
      rw [hsplit]
      simp only [read]
      rw [readLine_append hfits.1]
      rfl
  | failure text =>
      have hsplit : (failure text).encode ++ rest = 45 :: (text ++ (ascii "\r\n" ++ rest)) := by
        rw [encode, show ascii "-" = [45] by decide]
        simp only [List.append_assoc, List.cons_append, List.nil_append]
      rw [hsplit]
      simp only [read]
      rw [readLine_append hfits.1]
      rfl
  | number value =>
      have hsplit : (number value).encode ++ rest =
          58 :: (toDecimal value ++ (ascii "\r\n" ++ rest)) := by
        rw [encode, intReply, show ascii ":" = [58] by decide]
        simp only [List.append_assoc, List.cons_append, List.nil_append]
      rw [hsplit]
      simp only [read]
      rw [readLine_append (return_not_mem_toDecimal _), Option.bind_some, integer_toDecimal]
      rfl
  | bulk value =>
      have hbulk := readsBack_bulk value rest
      obtain ⟨first, digits, hdigits⟩ :=
        List.exists_cons_of_ne_nil (isDigit_decimal value.length).1
      have hfirst : isDigit first = true := List.all_eq_true.mp (isDigit_decimal value.length).2
        first (hdigits ▸ List.mem_cons_self)
      have hsplit : bulkReply value ++ rest = 36 :: first ::
          (digits ++ (ascii "\r\n" ++ (value ++ (ascii "\r\n" ++ rest)))) := by
        rw [bulkReply, show ascii "$" = [36] by decide, hdigits]
        simp only [List.append_assoc, List.cons_append, List.nil_append]
      have hnil : ¬nilReply <+: bulkReply value ++ rest := by
        rw [hsplit, show nilReply = [36, 45, 49, 13, 10] by decide]
        intro hprefix
        rw [List.cons_prefix_cons, List.cons_prefix_cons] at hprefix
        rw [← hprefix.2.1] at hfirst
        exact absurd hfirst (by decide)
      have hread : read (bulkReply value ++ rest) =
          if nilReply <+: bulkReply value ++ rest then
            some (nil, (bulkReply value ++ rest).drop nilReply.length)
          else (readBulk (bulkReply value ++ rest)).map fun value => (bulk value.1, value.2) := by
        rw [hsplit]
        rfl
      rw [encode, hread, if_neg hnil, hbulk]
      rfl
  | nil =>
      have hread : read (nilReply ++ rest) =
          if nilReply <+: nilReply ++ rest then
            some (nil, (nilReply ++ rest).drop nilReply.length)
          else (readBulk (nilReply ++ rest)).map fun value => (bulk value.1, value.2) := by
        rw [show nilReply = [36, 45, 49, 13, 10] by decide]
        rfl
      rw [encode, hread, if_pos (List.prefix_append _ _), List.drop_left]
  | array values =>
      have hsplit : (array values).encode ++ rest =
          42 :: (decimal values.length ++
            (ascii "\r\n" ++ (values.flatMap bulkReply ++ rest))) := by
        rw [encode, arrayReply, show ascii "*" = [42] by decide]
        simp only [List.append_assoc, List.cons_append, List.nil_append]
      rw [hsplit]
      simp only [read]
      rw [readLine_append (return_not_mem_decimal _), Option.bind_some, natural_decimal,
        Option.bind_some, Framed.readMany_flatMap fun value _ => readsBack_bulk value]
      rfl

theorem encode_ne_nil (reply : RespReply) : reply.encode ≠ [] := by
  cases reply with
  | nil => decide
  | _ => exact List.cons_ne_nil _ _

/-- Replies written one after the other are all read back. -/
theorem readAll_encode {replies : List RespReply} (hfits : ∀ reply ∈ replies, reply.Fits) :
    readAll (replies.flatMap encode) = some replies :=
  Framed.readAll_flatMap (fun reply hmem => readsBack (hfits reply hmem))
    (fun reply _ => reply.encode_ne_nil)
    (Framed.length_le_flatMap fun reply _ => reply.encode_ne_nil)

end RespReply

/-! ## What commands answer -/

/-- The text is one value of the protocol. -/
def IsReply (text : Bytes) : Prop := ∃ reply : RespReply, reply.Fits ∧ text = reply.encode

/-- Texts that are replies are read back from the stream that they make. -/
theorem readAll_flatten {texts : List Bytes} (htexts : ∀ text ∈ texts, IsReply text) :
    ∃ replies, RespReply.readAll texts.flatten = some replies ∧
      replies.map RespReply.encode = texts := by
  obtain ⟨replies, hfits, rfl⟩ : ∃ replies : List RespReply, (∀ reply ∈ replies, reply.Fits) ∧
      replies.map RespReply.encode = texts := by
    induction texts with
    | nil => exact ⟨[], List.forall_mem_nil _, rfl⟩
    | cons text texts ih =>
        obtain ⟨⟨reply, hreply, rfl⟩, hothers⟩ := List.forall_mem_cons.mp htexts
        obtain ⟨replies, hfits, rfl⟩ := ih hothers
        exact ⟨reply :: replies, List.forall_mem_cons.mpr ⟨hreply, hfits⟩, rfl⟩
  refine ⟨replies, ?_, rfl⟩
  rw [← List.flatMap_def]
  exact RespReply.readAll_encode hfits

theorem isReply_int (value : ℤ) : IsReply (intReply value) := ⟨.number value, trivial, rfl⟩

theorem isReply_bulk (value : Bytes) : IsReply (bulkReply value) := ⟨.bulk value, trivial, rfl⟩

theorem isReply_nil : IsReply nilReply := ⟨.nil, trivial, rfl⟩

theorem isReply_array (values : List Bytes) : IsReply (arrayReply values) :=
  ⟨.array values, trivial, rfl⟩

theorem isReply_ok : IsReply okReply :=
  ⟨.status (ascii "OK"), (by decide : OneLine (ascii "OK")), by decide⟩

theorem isReply_pong : IsReply (ascii "+PONG\r\n") :=
  ⟨.status (ascii "PONG"), (by decide : OneLine (ascii "PONG")), by decide⟩

theorem isReply_failure {line : Bytes} (hline : OneLine line) :
    IsReply (ascii "-" ++ line ++ ascii "\r\n") := ⟨.failure line, hline, rfl⟩

theorem isReply_rangeSlice (elements : List Bytes) (start stop : ℤ) :
    IsReply (rangeSlice elements start stop) := by
  unfold rangeSlice
  dsimp only
  split_ifs
  all_goals exact isReply_array _

/-- A line around a text. -/
theorem isReply_line {before text after : Bytes} (hbefore : OneLine before)
    (htext : OneLine text) (hafter : OneLine after) :
    IsReply (ascii "-" ++ (before ++ text ++ after) ++ ascii "\r\n") :=
  isReply_failure ⟨List.not_mem_append (List.not_mem_append hbefore.1 htext.1) hafter.1,
    List.not_mem_append (List.not_mem_append hbefore.2 htext.2) hafter.2⟩

namespace Command

/-- Every answer that the command can come to is good, whatever other commands do between its
sections. -/
def Answers (good : Bytes → Prop) : Command → Prop
  | .done reply => ∀ text, reply = .ok text → good text
  | .shared next => ∀ now store, (next now store).Answers good
  | .cleanUp _ next => next.Answers good
  | .exclusive body => ∀ now store text, (body now store).2 = .ok text → good text

variable {good : Bytes → Prop} {command : Command}

theorem Answers.run (hanswers : command.Answers good) {now : ℤ} {store : Store} {text : Bytes}
    (hok : (command.run now store).2 = .ok text) : good text := by
  induction command generalizing store with
  | done reply => exact hanswers text hok
  | shared next ih => exact ih now store (hanswers now store) hok
  | cleanUp clean next ih =>
      rw [Command.run] at hok
      split at hok
      next => cases hok
      next => exact ih hanswers hok
  | exclusive body => exact hanswers now store text hok

end Command

section Answers

variable {good : Bytes → Prop} {key expired : Bytes} {args : List Bytes}
  {clean : Store → Store × Except Err Unit}

theorem answers_error (err : Err) : (Command.done (.error err)).Answers good :=
  fun _ hok => by cases hok

theorem answers_done {reply : Bytes} (hreply : good reply) :
    (Command.done (.ok reply)).Answers good := by
  intro text hok
  rwa [← Except.ok.inj hok]

theorem answers_checkExpiry {whenExpired : Command} {live : ℤ → Store → Command}
    (hexpired : whenExpired.Answers good) (hlive : ∀ now store, (live now store).Answers good) :
    (checkExpiry key clean whenExpired live).Answers good := by
  intro now store
  dsimp only
  cases isExpired (store.get (getExplireKey key)) now with
  | error err => exact answers_error err
  | ok verdict =>
      cases verdict with
      | true => exact hexpired
      | false => exact hlive now store

theorem answers_readCommand {read : Store → Except Err Bytes} (hexpired : good expired)
    (hread : ∀ store text, read store = .ok text → good text) :
    (readCommand key clean expired read).Answers good :=
  answers_checkExpiry (answers_done hexpired) fun _ store text => hread store text

theorem answers_takeCommand {body : Store → Store × Except Err Bytes} (hexpired : good expired)
    (hbody : ∀ store text, (body store).2 = .ok text → good text) :
    (takeCommand key clean expired body).Answers good :=
  answers_checkExpiry (answers_done hexpired) fun _ _ _ store text => hbody store text

theorem answers_writeCommand {body : Store → Store × Except Err Bytes}
    (hbody : ∀ store text, (body store).2 = .ok text → good text) :
    (writeCommand key clean body).Answers good :=
  answers_checkExpiry (fun _ store text => hbody store text)
    fun _ _ _ store text => hbody store text

theorem answers_withArg {idx : ℕ} {next : Bytes → Command}
    (hnext : ∀ arg, (next arg).Answers good) : (withArg args idx next).Answers good := by
  rw [withArg]
  cases args[idx]? with
  | none => exact answers_error _
  | some arg => exact hnext arg

theorem answers_withNumber {number : Except Err ℤ} {next : ℤ → Command}
    (hnext : ∀ number, (next number).Answers good) : (withNumber number next).Answers good := by
  cases number with
  | error err => exact answers_error err
  | ok number => exact hnext number

theorem answers_wrongNumber {name : String} (hname : OneLine (ascii name)) :
    (wrongNumber name).Answers IsReply := by
  have hsame : ascii "-ERR wrong number of arguments for '" ++ ascii name ++
      ascii "' command\r\n" = ascii "-" ++ (ascii "ERR wrong number of arguments for '" ++
        ascii name ++ ascii "' command") ++ ascii "\r\n" := by
    have hfront : ascii "-ERR wrong number of arguments for '" =
        ascii "-" ++ ascii "ERR wrong number of arguments for '" := by decide
    have hback : ascii "' command\r\n" = ascii "' command" ++ ascii "\r\n" := by decide
    rw [hfront, hback]
    simp only [List.append_assoc]
  apply answers_done
  rw [hsame]
  exact isReply_line (by decide) hname (by decide)

/-- The handlers answer a wrong number of arguments themselves. -/
theorem answers_checked {wrong : Prop} [Decidable wrong] {name : String}
    (hname : OneLine (ascii name)) {next : Command} (hnext : next.Answers IsReply) :
    (if wrong then wrongNumber name else next).Answers IsReply := by
  split_ifs
  · exact answers_wrongNumber hname
  · exact hnext

/-- A reply that is what it is whatever the store holds. -/
theorem isReply_of_ok {reply text : Bytes} (hreply : IsReply reply)
    (hok : Except.ok reply = (Except.ok text : Except Err Bytes)) : IsReply text := by
  rwa [← Except.ok.inj hok]

/-! ## Strings -/

theorem answers_redisAdd (step : ℤ) :
    ((redisAdd step key).mapReply numberForm).Answers IsReply := by
  intro now store text
  dsimp only
  cases store.get key with
  | none => exact isReply_of_ok (isReply_int step)
  | some value =>
      dsimp only
      cases stoll value with
      | error err => exact fun hok => by cases hok
      | ok number => exact isReply_of_ok (isReply_int _)

theorem answers_redisDel : (redisDel args).Answers IsReply := by
  intro now store text hok
  obtain ⟨number, hnumber⟩ := delKeys_ok (args.drop 1) store 0
  exact isReply_of_ok (isReply_int number) (hnumber.symm.trans hok)

theorem answers_redisExpire (secondsCount : Bytes) :
    (redisExpire key secondsCount).Answers IsReply := by
  intro now store text
  dsimp only
  cases getExpireTime secondsCount now with
  | error err => exact fun hok => by cases hok
  | ok expireTimeStr => exact isReply_of_ok (isReply_int 1)

theorem answers_redisGet : (redisGet key).Answers IsReply := by
  intro now store
  dsimp only
  cases store.get key with
  | none =>
      cases store.get (getExplireKey key) with
      | none => exact answers_done isReply_nil
      | some expireStr => exact answers_done isReply_nil
  | some value =>
      cases store.get (getExplireKey key) with
      | none => exact answers_done (isReply_bulk value)
      | some expireStr =>
          dsimp only
          cases isExpired (some expireStr) now with
          | error err => exact answers_error err
          | ok verdict =>
              cases verdict with
              | true => exact answers_done isReply_nil
              | false => exact answers_done (isReply_bulk value)

theorem answers_redisTtl : (redisTtl key).Answers IsReply := by
  intro now store
  dsimp only
  cases store.get key with
  | none => exact answers_done (isReply_int _)
  | some value =>
      cases store.get (getExplireKey key) with
      | none => exact answers_done (isReply_int _)
      | some expireStr =>
          dsimp only
          cases isExpired (some expireStr) now with
          | error err => exact answers_error err
          | ok verdict =>
              cases verdict with
              | true => exact answers_done (isReply_int _)
              | false =>
                  dsimp only
                  cases stoll expireStr with
                  | error err => exact answers_error err
                  | ok expireTime => exact answers_done (isReply_int _)

/-! ## Hashes and lists -/

theorem answers_redisHsetBatch (fieldValuePairs : List (Bytes × Bytes)) :
    (redisHsetBatch key fieldValuePairs).Answers IsReply := by
  apply answers_writeCommand
  intro store text
  cases getFiledsFromHashValue (store.get key) with
  | error err => exact fun hok => by cases hok
  | ok fieldList => exact isReply_of_ok (isReply_int _)

theorem answers_redisHget (field : Bytes) : (redisHget key field).Answers IsReply := by
  apply answers_readCommand isReply_nil
  intro store text
  cases store.get (getHashFiledKey key field) with
  | none => exact isReply_of_ok isReply_nil
  | some value => exact isReply_of_ok (isReply_bulk value)

theorem answers_redisHdel (field : Bytes) : (redisHdel key field).Answers IsReply := by
  apply answers_takeCommand (isReply_int 0)
  intro store text
  dsimp only
  generalize (if (store.get (getHashFiledKey key field)).isSome
    then store.remove (getHashFiledKey key field) else store) = removed
  cases getFiledsFromHashValue (removed.get key) with
  | error err => exact fun hok => by cases hok
  | ok fieldList => exact isReply_of_ok (isReply_int _)

theorem answers_redisHkeys : (redisHkeys key).Answers IsReply := by
  apply answers_readCommand (isReply_array [])
  intro store text
  cases getFiledsFromHashValue (store.get key) with
  | error err => exact fun hok => by cases hok
  | ok fieldList => exact isReply_of_ok (isReply_array fieldList)

theorem answers_redisPush (added : Bytes → Bytes → Bytes) (value : Bytes) :
    (redisPush added key value).Answers IsReply :=
  answers_writeCommand fun _ _ => isReply_of_ok (isReply_int _)

theorem answers_redisPop (taken : List Bytes → Option (Bytes × List Bytes)) :
    (redisPop taken key).Answers IsReply := by
  apply answers_takeCommand isReply_nil
  intro store text
  cases store.get key with
  | none => exact isReply_of_ok isReply_nil
  | some list =>
      dsimp only
      cases taken (split list redisListSeparator) with
      | none => exact isReply_of_ok isReply_nil
      | some result => exact isReply_of_ok (isReply_bulk _)

theorem answers_redisLlen : (redisLlen key).Answers IsReply := by
  apply answers_readCommand (isReply_int 0)
  intro store text
  cases store.get key with
  | none => exact isReply_of_ok (isReply_int 0)
  | some list => exact isReply_of_ok (isReply_int _)

theorem answers_redisLrange (start stop : ℤ) : (redisLrange key start stop).Answers IsReply := by
  apply answers_readCommand (isReply_array [])
  intro store text
  cases store.get key with
  | none => exact isReply_of_ok (isReply_array [])
  | some list =>
      dsimp only
      split_ifs
      · exact isReply_of_ok (isReply_array [])
      · exact isReply_of_ok (isReply_rangeSlice _ start stop)

/-! ## Sorted sets and sets -/

theorem answers_redisZadd : (redisZadd args).Answers IsReply := by
  unfold redisZadd
  split
  next key args =>
    cases scorePairs args with
    | error err => exact answers_error err
    | ok pairs => exact answers_writeCommand fun _ _ => isReply_of_ok (isReply_int _)
  next => exact answers_error _

theorem answers_redisZrem : (redisZrem args).Answers IsReply := by
  unfold redisZrem
  split
  next => exact answers_takeCommand (isReply_int 0) fun _ _ => isReply_of_ok (isReply_int _)
  next => exact @answers_wrongNumber "zrem" (by decide)

theorem answers_redisZrange : (redisZrange args).Answers IsReply := by
  unfold redisZrange
  split
  next =>
    refine answers_withNumber fun start => answers_withNumber fun stop =>
      answers_readCommand (isReply_array []) fun store text => ?_
    dsimp only
    split_ifs
    · exact isReply_of_ok (isReply_array [])
    · exact isReply_of_ok (isReply_rangeSlice _ start stop)
  next => exact answers_error _

theorem answers_redisZcard : (redisZcard key).Answers IsReply :=
  answers_readCommand (isReply_int 0) fun _ _ => isReply_of_ok (isReply_int _)

theorem answers_redisZscore (elem : Bytes) : (redisZscore key elem).Answers IsReply := by
  apply answers_readCommand isReply_nil
  intro store text
  cases store.get (getZsetKeyElem key elem) with
  | none => exact isReply_of_ok isReply_nil
  | some score => exact isReply_of_ok (isReply_bulk score)

theorem answers_redisZincrby (arith : DoubleArith) (increment elem : Bytes) :
    (redisZincrby arith key increment elem).Answers IsReply := by
  apply answers_writeCommand
  intro store text
  dsimp only
  have hnumber : ∀ score : ℕ, IsReply (ascii ":" ++ decimal score ++ ascii "\r\n") := by
    intro score
    have hint := isReply_int score
    rwa [intReply, toDecimal, if_neg (by omega), Int.natAbs_natCast] at hint
  cases store.get (getZsetKeyElem key elem) with
  | none =>
      cases arith.stod increment with
      | error err => exact fun hok => by cases hok
      | ok number => exact isReply_of_ok (hnumber _)
  | some originalScore =>
      dsimp only
      cases stol originalScore with
      | error err => exact fun hok => by cases hok
      | ok original =>
          cases arith.stod increment with
          | error err => exact fun hok => by cases hok
          | ok number => exact isReply_of_ok (hnumber _)

theorem answers_redisZrank (elem : Bytes) : (redisZrank key elem).Answers IsReply := by
  apply answers_readCommand isReply_nil
  intro store text
  cases store.get (getZsetKeyElem key elem) with
  | none => exact isReply_of_ok isReply_nil
  | some score =>
      dsimp only
      generalize (store.scan (getZsetKeyPreffix key)).findIdx? _ = found
      cases found with
      | none => exact isReply_of_ok isReply_nil
      | some rank => exact isReply_of_ok (isReply_int _)

theorem answers_redisSadd : (redisSadd args).Answers IsReply := by
  unfold redisSadd
  split
  next key members =>
    apply answers_writeCommand
    intro store text
    dsimp only
    cases (store.get key).elim (.ok 0) stoi with
    | error err => exact fun hok => by cases hok
    | ok prevSize => exact isReply_of_ok (isReply_int _)
  next => exact answers_error _

theorem answers_redisSrem : (redisSrem args).Answers IsReply := by
  unfold redisSrem
  split
  next key members =>
    apply answers_takeCommand (isReply_int 0)
    intro store text
    dsimp only
    cases (store.get key).elim (.ok 0) stoi with
    | error err => exact fun hok => by cases hok
    | ok prevSize => exact isReply_of_ok (isReply_int _)
  next => exact answers_error _

theorem answers_redisSismember (member : Bytes) :
    (redisSismember key member).Answers IsReply :=
  answers_readCommand (isReply_int 0) fun _ _ => isReply_of_ok (isReply_int _)

theorem answers_redisSmembers : (redisSmembers key).Answers IsReply :=
  answers_readCommand (isReply_array []) fun _ _ => isReply_of_ok (isReply_array _)

end Answers

/-! ## Requests -/

/-- What answers take over as it is fits: the name of an unknown command is on one line, and
the record of a set that is asked for its size is a number. -/
def Readable (store : Store) (args : List Bytes) : Prop :=
  ∀ opStr ∈ args.head?, (string2Ops opStr = .unknown → OneLine opStr) ∧
    (string2Ops opStr = .scard → ∀ key ∈ args[1]?, ∀ size ∈ store.get key,
      ∃ number, size = toDecimal number)

theorem toDecimal_iff (text : Bytes) :
    text = toDecimal ((integer text).getD 0) ↔ ∃ number, text = toDecimal number := by
  constructor
  · exact fun hsame => ⟨_, hsame⟩
  · rintro ⟨number, rfl⟩
    rw [integer_toDecimal, Option.getD_some]

instance (text : Bytes) : Decidable (∃ number, text = toDecimal number) :=
  decidable_of_iff _ (toDecimal_iff text)

instance (store : Store) (args : List Bytes) : Decidable (Readable store args) :=
  inferInstanceAs (Decidable (∀ opStr ∈ args.head?, _))

theorem isReply_redisScard {key : Bytes} {now : ℤ} {store : Store} {text : Bytes}
    (hsize : ∀ size ∈ store.get key, ∃ number, size = toDecimal number)
    (hok : ((redisScard key).run now store).2 = .ok text) : IsReply text := by
  rw [redisScard, readCommand, checkExpiry, Command.run] at hok
  cases hexpired : isExpired (store.get (getExplireKey key)) now with
  | error err =>
      rw [hexpired] at hok
      cases hok
  | ok verdict =>
      rw [hexpired] at hok
      cases verdict with
      | true =>
          -- The clean-up does not fail, and the answer is fixed.
          exact isReply_of_ok (isReply_int 0) hok
      | false =>
          rw [Command.run] at hok
          cases hget : store.get key with
          | none =>
              rw [hget] at hok
              exact isReply_of_ok (isReply_int 0) hok
          | some size =>
              rw [hget] at hok
              obtain ⟨number, rfl⟩ := hsize size hget
              exact isReply_of_ok (isReply_int number) hok

theorem isReply_unknown {opStr : Bytes} (hline : OneLine opStr) :
    IsReply (ascii "-ERR unknown command '" ++ opStr ++ ascii "'\r\n") := by
  have hsame : ascii "-ERR unknown command '" ++ opStr ++ ascii "'\r\n" =
      ascii "-" ++ (ascii "ERR unknown command '" ++ opStr ++ ascii "'") ++ ascii "\r\n" := by
    have hfront : ascii "-ERR unknown command '" = ascii "-" ++ ascii "ERR unknown command '" := by
      decide
    have hback : ascii "'\r\n" = ascii "'" ++ ascii "\r\n" := by decide
    rw [hfront, hback]
    simp only [List.append_assoc]
  rw [hsame]
  exact isReply_line (by decide) hline (by decide)

/-- What a request answers is one value of the protocol. -/
theorem isReply_dispatch (arith : DoubleArith) {args : List Bytes} {now : ℤ} {store : Store}
    (hreadable : Readable store args) {text : Bytes}
    (hok : ((dispatch arith args).run now store).2 = .ok text) : IsReply text := by
  cases args with
  | nil => cases hok
  | cons opStr rest =>
      obtain ⟨hunknown, hscard⟩ := hreadable opStr rfl
      rw [dispatch, withArg, List.getElem?_cons_zero] at hok
      dsimp only at hok
      have hsecond : ∀ {next : Bytes → Command}, (∀ key, (next key).Answers IsReply) →
          ∀ {size : ℕ} {name : String}, OneLine (ascii name) →
            (exactly size name (opStr :: rest) (withArg (opStr :: rest) 1 next)).Answers
              IsReply := fun hnext _ _ hname => answers_checked hname (answers_withArg hnext)
      generalize string2Ops opStr = op at hok hunknown hscard
      cases op with
      | ping => exact isReply_of_ok isReply_pong hok
      | flushall => exact isReply_of_ok isReply_ok hok
      | save => exact isReply_of_ok isReply_ok hok
      | unknown => exact isReply_of_ok (isReply_unknown (hunknown rfl)) hok
      | scard =>
          dsimp only at hok
          rw [scardHandler, exactly] at hok
          split_ifs at hok
          · exact (@answers_wrongNumber "scard" (by decide)).run hok
          · rw [withArg] at hok
            cases hkey : (opStr :: rest)[1]? with
            | none =>
                rw [hkey] at hok
                cases hok
            | some key =>
                rw [hkey] at hok
                exact isReply_redisScard (hscard rfl key hkey) hok
      | get => exact (hsecond (fun key => answers_redisGet) (by decide)).run hok
      | set =>
          refine (hsecond (fun key => answers_withArg fun value => ?_) (by decide)).run hok
          exact fun _ _ _ => isReply_of_ok isReply_ok
      | del =>
          have hname : OneLine (ascii "DEL") := by decide
          exact (answers_checked hname answers_redisDel).run hok
      | incr => exact (hsecond (fun key => answers_redisAdd 1) (by decide)).run hok
      | decr => exact (hsecond (fun key => answers_redisAdd (-1)) (by decide)).run hok
      | expire =>
          exact (hsecond (fun key => answers_withArg fun secondsCount =>
            answers_redisExpire secondsCount) (by decide)).run hok
      | ttl => exact (hsecond (fun key => answers_redisTtl) (by decide)).run hok
      | hset =>
          have hname : OneLine (ascii "HSET") := by decide
          have hlower : OneLine (ascii "hset") := by decide
          exact (answers_checked hname (answers_checked hlower (answers_withArg fun key =>
            answers_redisHsetBatch _))).run hok
      | hget =>
          exact (hsecond (fun key => answers_withArg fun field =>
            answers_redisHget field) (by decide)).run hok
      | hdel =>
          exact (hsecond (fun key => answers_withArg fun field =>
            answers_redisHdel field) (by decide)).run hok
      | hkeys => exact (hsecond (fun key => answers_redisHkeys) (by decide)).run hok
      | lpush =>
          exact (hsecond (fun key => answers_withArg fun value =>
            answers_redisPush _ value) (by decide)).run hok
      | rpush =>
          exact (hsecond (fun key => answers_withArg fun value =>
            answers_redisPush _ value) (by decide)).run hok
      | lpop => exact (hsecond (fun key => answers_redisPop popFront) (by decide)).run hok
      | rpop => exact (hsecond (fun key => answers_redisPop popBack) (by decide)).run hok
      | llen => exact (hsecond (fun key => answers_redisLlen) (by decide)).run hok
      | lrange =>
          have hname : OneLine (ascii "LRANGE") := by decide
          exact (answers_checked hname (answers_withArg fun startStr => answers_withArg
            fun endStr => answers_withNumber fun start => answers_withNumber fun stop =>
              answers_withArg fun key => answers_redisLrange start stop)).run hok
      | zadd =>
          have hname : OneLine (ascii "zadd") := by decide
          exact (answers_checked hname answers_redisZadd).run hok
      | zrem =>
          have hname : OneLine (ascii "zrem") := by decide
          exact (answers_checked hname answers_redisZrem).run hok
      | zrange =>
          have hname : OneLine (ascii "zrange") := by decide
          exact (answers_checked hname answers_redisZrange).run hok
      | zcard => exact (hsecond (fun key => answers_redisZcard) (by decide)).run hok
      | zscore =>
          exact (hsecond (fun key => answers_withArg fun elem =>
            answers_redisZscore elem) (by decide)).run hok
      | zincrby =>
          exact (hsecond (fun key => answers_withArg fun increment => answers_withArg fun elem =>
            answers_redisZincrby arith increment elem) (by decide)).run hok
      | zrank =>
          exact (hsecond (fun key => answers_withArg fun elem =>
            answers_redisZrank elem) (by decide)).run hok
      | sadd =>
          have hname : OneLine (ascii "sadd") := by decide
          exact (answers_checked hname answers_redisSadd).run hok
      | srem =>
          have hname : OneLine (ascii "srem") := by decide
          exact (answers_checked hname answers_redisSrem).run hok
      | sismember =>
          exact (hsecond (fun key => answers_withArg fun member =>
            answers_redisSismember member) (by decide)).run hok
      | smembers => exact (hsecond (fun key => answers_redisSmembers) (by decide)).run hok

/-! ## What the parser answers -/

theorem isReply_protocolError {text : String} (htext : OneLine (ascii text)) :
    IsReply (ascii "-ERR Protocol error: " ++ ascii text ++ ascii "\r\n") := by
  have hfront : ascii "-ERR Protocol error: " = ascii "-" ++ ascii "ERR Protocol error: " := by
    decide
  have hline : OneLine (ascii "ERR Protocol error: ") := by decide
  rw [hfront, List.append_assoc (ascii "-")]
  exact isReply_failure ⟨List.not_mem_append hline.1 htext.1,
    List.not_mem_append hline.2 htext.2⟩

theorem isReply_of_protocolError {text : String} (htext : OneLine (ascii text)) {reply : Bytes}
    (hreply : protocolError text = .reply reply) : IsReply reply := by
  rw [← Parsed.reply.inj hreply]
  exact isReply_protocolError htext

theorem parseBulks_reply {request : Bytes} {numElements pos : ℕ} {args : List Bytes}
    {reply : Bytes} (hreply : parseBulks request numElements pos args = .reply reply) :
    IsReply reply := by
  induction numElements generalizing pos args with
  | zero =>
      rw [parseBulks] at hreply
      cases hreply
  | succ numElements ih =>
      rw [parseBulks] at hreply
      split_ifs at hreply with hdollar
      · exact isReply_of_protocolError (by decide) hreply
      · dsimp only at hreply
        cases hlen : stoi (request.drop (pos + 1)) with
        | error err =>
            rw [hlen] at hreply
            exact isReply_of_protocolError (by decide) hreply
        | ok len =>
            rw [hlen] at hreply
            dsimp only at hreply
            split_ifs at hreply
            · exact isReply_of_protocolError (by decide) hreply
            · exact ih hreply

theorem parseRequest_reply {request reply : Bytes} (hreply : parseRequest request = .reply reply) :
    IsReply reply := by
  rw [parseRequest] at hreply
  split_ifs at hreply
  · exact isReply_of_protocolError (by decide) hreply
  · exact Parsed.reply.inj hreply ▸ isReply_pong
  · cases hcount : stoi (request.drop 1) with
    | error err =>
        rw [hcount] at hreply
        exact isReply_of_protocolError (by decide) hreply
    | ok numElements =>
        rw [hcount] at hreply
        exact parseBulks_reply hreply

end KopiDb.Redis
