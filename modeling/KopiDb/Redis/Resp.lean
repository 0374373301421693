import KopiDb.Redis.Server

/-!
# Parsing of requests

`handleRequest` reads an array of bulk strings.  It goes from line to line: the count and
the lengths stand before the next line feed, and after a string it goes on behind the first
line feed from the start of the string.
-/

namespace KopiDb.Redis

/-- What becomes of a request. -/
inductive Parsed where
  | reply (text : Bytes)
  | dispatch (args : List Bytes)
  | throws (err : Err)
  deriving DecidableEq

/-! ## Positions -/

/-- `request.find('\n', pos)` -/
def findNewline (request : Bytes) (pos : ℕ) : Option ℕ :=
  ((request.drop pos).findIdx? fun char => decide (char = 10)).map (pos + ·)

/-- A position in a variable of type `int`; `npos` is -1 there. -/
def toInt (found : Option ℕ) : ℤ :=
  match found with
  | none => -1
  | some idx => wrapInt 32 idx

/-- A number as a `size_t`. -/
def toSize (number : ℤ) : ℕ := (number % 2 ^ 64).toNat

def protocolError (text : String) : Parsed :=
  .reply (ascii "-ERR Protocol error: " ++ ascii text ++ ascii "\r\n")

/-- The loop over the elements. -/
def parseBulks (request : Bytes) : ℕ → ℕ → List Bytes → Parsed
  | 0, _, args => .dispatch args
  | numElements + 1, pos, args =>
      if request[pos]? ≠ some 36 then protocolError "expected '$'"
      else
        let nextNPos := toInt (findNewline request pos)
        match stoi (request.drop (pos + 1)) with
        | .error _ => protocolError "invalid bulk string length"
        | .ok len =>
            let pos := toSize (nextNPos + 1)
            if toSize (pos + len) > request.length then
              protocolError "bulk string length exceeds request size"
            else if pos > request.length then .throws (.outOfRange "basic_string::substr")
            else
              let arg := (request.drop pos).take (toSize len)
              let nextNPos := toInt (findNewline request pos)
              parseBulks request numElements (toSize (nextNPos + 1)) (args ++ [arg])

def parseRequest (request : Bytes) : Parsed :=
  if request = [] then protocolError "expected '*'"
  else if request = ascii "PING\r\n" then .reply (ascii "+PONG\r\n")
  else
    match stoi (request.drop 1) with
    | .error _ => protocolError "invalid number of elements"
    | .ok numElements =>
        let pos := (findNewline request 0).elim 0 Nat.succ
        parseBulks request numElements.toNat pos []

def handleRequest (arith : DoubleArith) (request : Bytes) : Command :=
  match parseRequest request with
  | .reply text => .done (.ok text)
  | .dispatch args => dispatch arith args
  | .throws err => .done (.error err)

/-! ## The form of requests -/

/-- The encoding of an array of bulk strings, which is that of an array in a reply. -/
def encodeRequest (args : List Bytes) : Bytes := arrayReply args

/-- The elements as the parser takes them: a dollar sign, a line with the length, as many
bytes, and what is left of the line.  Of the last element the line need not end. -/
def BulksForm : List Bytes → Bytes → Prop
  | [], _ => True
  | [arg], rest =>
      ∃ line tail, rest = 36 :: (line ++ 10 :: (arg ++ tail)) ∧ 10 ∉ line ∧
        stoi (rest.drop 1) = .ok arg.length
  | arg :: args, rest =>
      ∃ line junk tail, rest = 36 :: (line ++ 10 :: (arg ++ (junk ++ 10 :: tail))) ∧
        10 ∉ line ∧ 10 ∉ arg ∧ 10 ∉ junk ∧ stoi (rest.drop 1) = .ok arg.length ∧
          BulksForm args tail

/-- Some first character, a line with the number of elements, and the elements. -/
def RequestForm (args : List Bytes) (request : Bytes) : Prop :=
  ∃ first line tail, request = first :: (line ++ 10 :: tail) ∧ 10 ∉ line ∧
    stoi (request.drop 1) = .ok args.length ∧ BulksForm args tail

/-- With so many elements to come, the parser comes to a length whose line has no end or
that is negative, or to a line feed within an element that is not the last. -/
inductive Slips : ℕ → Bytes → Prop where
  | noEnd {numElements : ℕ} {line : Bytes} {len : ℤ} (hline : 10 ∉ line)
      (hlen : stoi line = .ok len) : Slips (numElements + 1) (36 :: line)
  | negative {numElements : ℕ} {line tail : Bytes} {len : ℤ}
      (hlen : stoi (line ++ 10 :: tail) = .ok len) (hnegative : len < 0) :
      Slips (numElements + 1) (36 :: (line ++ 10 :: tail))
  | inner {numElements : ℕ} {line arg tail : Bytes} (hline : 10 ∉ line) (harg : 10 ∈ arg)
      (hlen : stoi (line ++ 10 :: (arg ++ tail)) = .ok arg.length) :
      Slips (numElements + 2) (36 :: (line ++ 10 :: (arg ++ tail)))
  | later {numElements : ℕ} {line arg junk tail : Bytes} (hline : 10 ∉ line)
      (harg : 10 ∉ arg) (hjunk : 10 ∉ junk)
      (hlen : stoi (line ++ 10 :: (arg ++ (junk ++ 10 :: tail))) = .ok arg.length)
      (hrest : Slips (numElements + 1) tail) :
      Slips (numElements + 2) (36 :: (line ++ 10 :: (arg ++ (junk ++ 10 :: tail))))

/-- There are no elements, or the parser slips at one of them. -/
def SlipsAt (request : Bytes) : Prop :=
  ∃ numElements, stoi (request.drop 1) = .ok numElements ∧
    (numElements ≤ 0 ∨ ∃ first line tail, request = first :: (line ++ 10 :: tail) ∧
      10 ∉ line ∧ Slips numElements.toNat tail)

def IsProtocolError (text : Bytes) : Prop := ascii "-ERR Protocol error: " <+: text

/-! ## Positions within a request -/

theorem findNewline_some {request before rest : Bytes} {pos : ℕ}
    (hrest : request.drop pos = before ++ 10 :: rest) (hbefore : 10 ∉ before) :
    findNewline request pos = some (pos + before.length) := by
  have hnone : before.findIdx? (fun char => decide (char = 10)) = none := by
    rw [List.findIdx?_eq_none_iff]
    intro char hchar
    rw [decide_eq_false_iff_not]
    rintro rfl
    exact hbefore hchar
  rw [findNewline, hrest, List.findIdx?_append, hnone, List.findIdx?_cons]
  simp

theorem findNewline_none {request : Bytes} {pos : ℕ} (hrest : 10 ∉ request.drop pos) :
    findNewline request pos = none := by
  rw [findNewline, Option.map_eq_none_iff, List.findIdx?_eq_none_iff]
  intro char hchar
  rw [decide_eq_false_iff_not]
  rintro rfl
  exact hrest hchar

theorem toSize_of_lt {number : ℕ} (hlt : number < 2 ^ 64) : toSize number = number := by
  rw [toSize]
  omega

theorem toInt_some {idx : ℕ} (hlt : idx < 2 ^ 31) : toInt (some idx) = idx := by
  rw [toInt, wrapInt]
  apply Int.bmod_eq_of_le <;> omega

/-! ## One element -/

section Element

variable {request : Bytes} {pos : ℕ} {args : List Bytes} {numElements : ℕ}

theorem parseBulks_noDollar (hhead : (request.drop pos).head? ≠ some 36) :
    parseBulks request (numElements + 1) pos args = protocolError "expected '$'" := by
  rw [parseBulks, if_pos]
  rwa [← List.head?_drop]

theorem parseBulks_badLength {rest : Bytes} {err : Err} (hrest : request.drop pos = 36 :: rest)
    (hlen : stoi rest = .error err) :
    parseBulks request (numElements + 1) pos args =
      protocolError "invalid bulk string length" := by
  have hnext : request.drop (pos + 1) = rest := by
    rw [← List.drop_drop, hrest, List.drop_succ_cons, List.drop_zero]
  rw [parseBulks, if_neg, hnext, hlen]
  rw [← List.head?_drop, hrest]
  exact not_not.mpr rfl

/-- The position behind the first line feed. -/
theorem next_line {before rest : Bytes} (hsize : request.length < 2 ^ 31)
    (hrest : request.drop pos = before ++ 10 :: rest) (hbefore : 10 ∉ before) :
    request.drop (toSize (toInt (findNewline request pos) + 1)) = rest ∧
      toSize (toInt (findNewline request pos) + 1) = pos + before.length + 1 := by
  have hlength := congrArg List.length hrest
  rw [List.length_drop, List.length_append, List.length_cons] at hlength
  have hnext : toSize (toInt (findNewline request pos) + 1) = pos + before.length + 1 := by
    rw [findNewline_some hrest hbefore, toInt_some (by omega), ← Nat.cast_succ,
      toSize_of_lt (by omega)]
  refine ⟨?_, hnext⟩
  rw [hnext, Nat.add_assoc, ← List.drop_drop, hrest, ← List.drop_drop, List.drop_left]
  rfl

/-- An element whose length line is well formed: the parser goes on after the first line
feed from the start of the string. -/
theorem parseBulks_element {line tail : Bytes} {len : ℕ} (hsize : request.length < 2 ^ 31)
    (hrest : request.drop pos = 36 :: (line ++ 10 :: tail)) (hline : 10 ∉ line)
    (hlen : stoi (line ++ 10 :: tail) = .ok len) :
    parseBulks request (numElements + 1) pos args =
      if tail.length < len then protocolError "bulk string length exceeds request size"
      else parseBulks request numElements
        (toSize (toInt (findNewline request (pos + line.length + 2)) + 1))
        (args ++ [tail.take len]) := by
  have hnext : request.drop (pos + 1) = line ++ 10 :: tail := by
    rw [← List.drop_drop, hrest, List.drop_succ_cons, List.drop_zero]
  have hsplit : request.drop pos = (36 :: line) ++ 10 :: tail := hrest
  obtain ⟨htail, hpos⟩ := next_line hsize hsplit 
    (List.not_mem_cons_of_ne_of_not_mem (by decide) hline)
  rw [List.length_cons] at hpos
  have hlength := congrArg List.length htail
  rw [List.length_drop] at hlength
  have hbound := congrArg List.length hrest
  rw [List.length_drop, List.length_cons, List.length_append, List.length_cons] at hbound
  have hrange := (stoi_range hlen).2
  rw [parseBulks, if_neg, hnext, hlen]
  · dsimp only
    rw [hpos] at hlength htail ⊢
    rw [← Nat.cast_add, toSize_of_lt (by omega), toSize_of_lt (by omega), htail]
    by_cases hlong : tail.length < len
    · rw [if_pos hlong, if_pos (by omega)]
    · rw [if_neg hlong, if_neg (by omega), if_neg (by omega)]
      rfl
  · rw [← List.head?_drop, hrest]
    exact not_not.mpr rfl

end Element

/-! ## All elements -/

theorem drop_tail {request line tail : Bytes} {pos : ℕ}
    (hrest : request.drop pos = 36 :: (line ++ 10 :: tail)) :
    request.drop (pos + line.length + 2) = tail := by
  have hsplit : 36 :: (line ++ 10 :: tail) = (36 :: line ++ [10]) ++ tail := by simp
  rw [Nat.add_assoc, ← List.drop_drop, hrest, hsplit]
  exact List.drop_left' (by simp)

/-- Elements in the form of the parser are what it finds. -/
theorem parseBulks_form {request : Bytes} (hsize : request.length < 2 ^ 31) {bulks : List Bytes}
    {pos : ℕ} (args : List Bytes) (hform : BulksForm bulks (request.drop pos)) :
    parseBulks request bulks.length pos args = .dispatch (args ++ bulks) := by
  induction bulks generalizing pos args with
  | nil => rw [List.append_nil, List.length_nil, parseBulks]
  | cons arg bulks ih =>
      cases bulks with
      | nil =>
          obtain ⟨line, tail, hrest, hline, hlen⟩ := hform
          rw [hrest, List.drop_succ_cons, List.drop_zero] at hlen
          rw [List.length_singleton, parseBulks_element hsize hrest hline hlen, if_neg,
            List.take_left, parseBulks]
          rw [List.length_append]
          omega
      | cons other bulks =>
          obtain ⟨line, junk, tail, hrest, hline, harg, hjunk, hlen, hform⟩ := hform
          rw [hrest, List.drop_succ_cons, List.drop_zero] at hlen
          have htail := drop_tail hrest
          rw [← List.append_assoc] at htail
          obtain ⟨hnext, -⟩ := next_line hsize htail
            (List.not_mem_append harg hjunk)
          rw [List.length_cons, parseBulks_element hsize hrest hline hlen, if_neg,
            List.take_left, ih]
          · rw [List.append_assoc, List.singleton_append]
          · rwa [hnext]
          · rw [List.length_append]
            omega

theorem isProtocolError_protocolError {text : String} :
    ∃ reply, protocolError text = .reply reply ∧ IsProtocolError reply :=
  ⟨_, rfl, by rw [List.append_assoc]; exact List.prefix_append _ _⟩

/-- Without a slip the elements have the form, or the answer is a protocol error. -/
theorem parseBulks_or_error {request : Bytes} (hstart : request.head? = some 42)
    (hsize : request.length < 2 ^ 31) {numElements pos : ℕ} (args : List Bytes)
    (hslips : ¬Slips numElements (request.drop pos)) :
    (∃ bulks, bulks.length = numElements ∧ BulksForm bulks (request.drop pos)) ∨
      ∃ reply, parseBulks request numElements pos args = .reply reply ∧
        IsProtocolError reply := by
  induction numElements generalizing pos args with
  | zero => exact Or.inl ⟨[], rfl, trivial⟩
  | succ numElements ih =>
      by_cases hdollar : (request.drop pos).head? = some 36
      swap
      · rw [parseBulks_noDollar hdollar]
        exact Or.inr isProtocolError_protocolError
      obtain ⟨text, htext⟩ : ∃ text, request.drop pos = 36 :: text :=
        ⟨_, List.eq_cons_of_mem_head? hdollar⟩
      rw [htext] at hslips ⊢
      cases hlen : stoi text with
      | error err =>
          rw [parseBulks_badLength htext hlen]
          exact Or.inr isProtocolError_protocolError
      | ok number =>
          by_cases hend : 10 ∈ text
          swap
          · exact absurd (.noEnd hend hlen) hslips
          obtain ⟨line, tail, rfl, hline⟩ := List.eq_append_cons_of_mem hend
          rcases lt_or_ge number 0 with hnegative | hnonneg
          · exact absurd (.negative hlen hnegative) hslips
          lift number to ℕ using hnonneg with len
          rw [parseBulks_element hsize htext hline hlen]
          by_cases hlong : tail.length < len
          · rw [if_pos hlong]
            exact Or.inr isProtocolError_protocolError
          rw [if_neg hlong]
          have htail := drop_tail htext
          obtain ⟨arg, after, rfl, rfl⟩ : ∃ arg after, tail = arg ++ after ∧ arg.length = len :=
            ⟨tail.take len, tail.drop len, (List.take_append_drop _ _).symm,
              List.length_take_of_le (not_lt.mp hlong)⟩
          rw [List.take_left]
          cases numElements with
          | zero =>
              left
              exact ⟨[arg], rfl, line, after, rfl, hline, hlen⟩
          | succ numElements =>
              by_cases harg : 10 ∈ arg
              · exact absurd (.inner hline harg hlen) hslips
              by_cases hafter : 10 ∈ after
              swap
              · -- The position is that of the first character again.
                rw [findNewline_none (htail ▸ List.not_mem_append harg hafter)]
                change _ ∨ ∃ reply, parseBulks request (numElements + 1) 0 _ = _ ∧ _
                rw [parseBulks_noDollar (by rw [List.drop_zero, hstart]; decide)]
                exact Or.inr isProtocolError_protocolError
              obtain ⟨junk, more, rfl, hjunk⟩ := List.eq_append_cons_of_mem hafter
              rw [← List.append_assoc] at htail
              obtain ⟨hnext, -⟩ := next_line hsize htail
                (List.not_mem_append harg hjunk)
              have hrest : ¬Slips (numElements + 1) more := fun hmore =>
                hslips (.later hline harg hjunk hlen hmore)
              rw [← hnext] at hrest
              rcases ih (args ++ [arg]) hrest with ⟨bulks, hlength, hform⟩ | herror
              · left
                rw [hnext] at hform
                obtain ⟨other, bulks, rfl⟩ := List.exists_cons_of_length_eq_add_one hlength
                exact ⟨arg :: other :: bulks, by rw [List.length_cons, hlength], line, junk, more,
                  rfl, hline, harg, hjunk, hlen, hform⟩
              · exact Or.inr herror

/-! ## Encodings -/

/-- A number before the end of its line. -/
theorem stoi_decimal {number : ℕ} (hrange : number < 2 ^ 31) (rest : Bytes) :
    stoi (decimal number ++ 13 :: rest) = .ok number :=
  stoi_decimal_append hrange (List.takeWhile_cons_of_neg (by decide))

theorem newline_not_mem_decimal (number : ℕ) : 10 ∉ decimal number ++ [13] := by
  intro hmem
  rcases List.mem_append.mp hmem with hmem | hmem
  · have hdigit := List.all_eq_true.mp (isDigit_decimal number).2 10 hmem
    revert hdigit
    decide
  · revert hmem
    decide

theorem bulkReply_append (value rest : Bytes) :
    bulkReply value ++ rest =
      36 :: ((decimal value.length ++ [13]) ++ 10 :: (value ++ ([13] ++ 10 :: rest))) := by
  simp only [bulkReply, List.append_assoc]
  rfl

theorem bulksForm_encode {args : List Bytes} (hlines : ∀ arg ∈ args.dropLast, 10 ∉ arg)
    (hsize : ∀ arg ∈ args, arg.length < 2 ^ 31) (rest : Bytes) :
    BulksForm args (args.flatMap bulkReply ++ rest) := by
  induction args with
  | nil => trivial
  | cons arg args ih =>
      obtain ⟨harg, hargs⟩ := List.forall_mem_cons.mp hsize
      rw [List.flatMap_cons, List.append_assoc, bulkReply_append]
      have hlen : ∀ tail, stoi ((decimal arg.length ++ [13]) ++ tail) = .ok arg.length := by
        intro tail
        rw [List.append_assoc]
        exact stoi_decimal harg tail
      cases args with
      | nil =>
          exact ⟨_, _, rfl, newline_not_mem_decimal _, hlen _⟩
      | cons other args =>
          obtain ⟨hline, hlines⟩ := List.forall_mem_cons.mp hlines
          exact ⟨_, _, _, rfl, newline_not_mem_decimal _, hline, by decide, hlen _,
            ih hlines hargs⟩

/-! ## The result of the parser -/

section Request

variable {request : Bytes} (hstart : request.head? = some 42) (hsize : request.length < 2 ^ 31)
include hstart

theorem parseRequest_star :
    parseRequest request =
      match stoi (request.drop 1) with
      | .error _ => protocolError "invalid number of elements"
      | .ok numElements =>
          parseBulks request numElements.toNat ((findNewline request 0).elim 0 Nat.succ) [] := by
  rw [parseRequest, if_neg, if_neg]
  · rintro rfl
    revert hstart
    decide
  · rintro rfl
    cases hstart

include hsize

theorem parseRequest_form {args : List Bytes} (hform : RequestForm args request) :
    parseRequest request = .dispatch args := by
  obtain ⟨first, line, tail, hrequest, hline, hcount, hbulks⟩ := hform
  have hfirst : first = 42 := by
    rw [hrequest] at hstart
    exact Option.some.inj hstart
  have hsplit : request.drop 0 = (first :: line) ++ 10 :: tail := hrequest
  have hbefore : 10 ∉ first :: line :=
    List.not_mem_cons_of_ne_of_not_mem (by rw [hfirst]; decide) hline
  obtain ⟨htail, hpos⟩ := next_line hsize hsplit hbefore
  rw [parseRequest_star hstart, hcount, findNewline_some hsplit hbefore]
  dsimp only
  rw [hpos] at htail
  rw [Int.toNat_natCast, Option.elim_some, Nat.succ_eq_add_one,
    parseBulks_form hsize [] (htail ▸ hbulks), List.nil_append]

theorem parseRequest_or_error (hslips : ¬SlipsAt request) :
    (∃ args, RequestForm args request) ∨
      ∃ reply, parseRequest request = .reply reply ∧ IsProtocolError reply := by
  rw [parseRequest_star hstart]
  cases hcount : stoi (request.drop 1) with
  | error err => exact Or.inr isProtocolError_protocolError
  | ok count =>
      have hpositive : 0 < count := by
        by_contra hle
        exact hslips ⟨count, hcount, Or.inl (not_lt.mp hle)⟩
      obtain ⟨text, hrequest⟩ : ∃ text, request = 42 :: text :=
        ⟨_, List.eq_cons_of_mem_head? hstart⟩
      by_cases hend : 10 ∈ text
      · obtain ⟨line, tail, rfl, hline⟩ := List.eq_append_cons_of_mem hend
        have hsplit : request.drop 0 = (42 :: line) ++ 10 :: tail := hrequest
        have hbefore : 10 ∉ 42 :: line := List.not_mem_cons_of_ne_of_not_mem (by decide) hline
        obtain ⟨htail, hpos⟩ := next_line hsize hsplit hbefore
        rw [hpos] at htail
        dsimp only
        rw [findNewline_some hsplit hbefore, Option.elim_some, Nat.succ_eq_add_one]
        have hrest : ¬Slips count.toNat (request.drop (0 + (42 :: line).length + 1)) := by
          rw [htail]
          exact fun hrest =>
            hslips ⟨count, hcount, Or.inr ⟨42, line, tail, hrequest, hline, hrest⟩⟩
        rcases parseBulks_or_error hstart hsize [] hrest with ⟨args, hlength, hform⟩ | herror
        · left
          rw [htail] at hform
          refine ⟨args, 42, line, tail, hrequest, hline, ?_, hform⟩
          rw [hcount, hlength, Int.toNat_of_nonneg hpositive.le]
        · exact Or.inr herror
      · right
        have hnone : 10 ∉ request.drop 0 := by
          rw [hrequest]
          exact List.not_mem_cons_of_ne_of_not_mem (by decide) hend
        obtain ⟨more, hmore⟩ : ∃ more, count.toNat = more + 1 := ⟨count.toNat - 1, by omega⟩
        dsimp only
        rw [findNewline_none hnone, Option.elim_none, hmore,
          parseBulks_noDollar (by rw [List.drop_zero, hstart]; decide)]
        exact isProtocolError_protocolError

end Request

theorem length_bulks (args : List Bytes) :
    args.length ≤ (args.flatMap bulkReply).length ∧
      ∀ arg ∈ args, arg.length ≤ (args.flatMap bulkReply).length := by
  induction args with
  | nil => exact ⟨le_rfl, List.forall_mem_nil _⟩
  | cons arg args ih =>
      have hbulk : arg.length + 1 ≤ (bulkReply arg).length := by
        simp only [bulkReply, List.length_append]
        have hdollar : (ascii "$").length = 1 := rfl
        omega
      rw [List.flatMap_cons, List.length_append, List.length_cons, List.forall_mem_cons]
      refine ⟨by omega, by omega, ?_⟩
      intro other hother
      exact (ih.2 other hother).trans (Nat.le_add_left _ _)

theorem requestForm_encode {args : List Bytes} (hlines : ∀ arg ∈ args.dropLast, 10 ∉ arg)
    (hsize : (encodeRequest args).length < 2 ^ 31) : RequestForm args (encodeRequest args) := by
  have hform : encodeRequest args =
      42 :: ((decimal args.length ++ [13]) ++ 10 :: args.flatMap bulkReply) := by
    simp only [encodeRequest, arrayReply, List.append_assoc]
    rfl
  obtain ⟨hcount, hargs⟩ := length_bulks args
  have hbulks : (args.flatMap bulkReply).length < 2 ^ 31 := by
    rw [hform, List.length_cons, List.length_append, List.length_cons] at hsize
    omega
  have hcount : args.length < 2 ^ 31 := by omega
  refine ⟨42, _, _, hform, newline_not_mem_decimal _, ?_, ?_⟩
  · rw [hform, List.drop_succ_cons, List.drop_zero, List.append_assoc]
    exact stoi_decimal hcount _
  · have hrest := bulksForm_encode hlines (fun arg harg => (hargs arg harg).trans_lt hbulks) []
    rwa [List.append_nil] at hrest

/-- The parser takes the encodings in which only the last string has line feeds.  Where it
does not slip, it takes what has the form that it reads, and answers anything else with a
protocol error. -/
theorem request_parsed {request : Bytes} (hstart : request.head? = some 42)
    (hsize : request.length < 2 ^ 31) :
    (∀ args, (∀ arg ∈ args.dropLast, 10 ∉ arg) → request = encodeRequest args →
      parseRequest request = .dispatch args) ∧
    (¬SlipsAt request →
      (∀ args, parseRequest request = .dispatch args ↔ RequestForm args request) ∧
      ((∀ args, ¬RequestForm args request) →
        ∃ reply, parseRequest request = .reply reply ∧ IsProtocolError reply)) := by
  constructor
  · rintro args hlines rfl
    exact parseRequest_form hstart hsize (requestForm_encode hlines hsize)
  intro hslips
  have hresult := parseRequest_or_error hstart hsize hslips
  constructor
  · intro args
    constructor
    · intro hparsed
      rcases hresult with ⟨other, hform⟩ | ⟨reply, hreply, -⟩
      · rw [parseRequest_form hstart hsize hform] at hparsed
        rwa [← Parsed.dispatch.inj hparsed]
      · rw [hreply] at hparsed
        cases hparsed
    · exact parseRequest_form hstart hsize
  · intro hnone
    exact hresult.resolve_left fun ⟨args, hform⟩ => hnone args hform

theorem request_parsed_sample :
    parseRequest (ascii "*2\r\n$3\r\nGET\r\n$2\r\n\n\n\r\n") =
      .dispatch [ascii "GET", ascii "\n\n"] :=
  (request_parsed rfl (by decide)).1 [ascii "GET", ascii "\n\n"] (by decide) (by decide)

/-- A line feed in a key is a protocol error, an empty array has no command that could be
looked at, and neither the first character nor the ends of lines are looked at. -/
theorem request_misread :
    (parseRequest (encodeRequest [ascii "SET", ascii "k\n", ascii "v"]) =
      protocolError "expected '$'") ∧
    ((handleRequest wholeArith (ascii "*0\r\n")).run 0 ∅).2 = .error .outOfBounds ∧
    parseRequest (ascii "?1\n$+3x\nGETx") = .dispatch [ascii "GET"] := by
  decide +kernel

end KopiDb.Redis
