/-
The prompt answers a text as a batch does.

Prompt and batch find their lines in different ways. The prompt cuts a stream of bytes at each newline and then decodes
what it has cut, which on the bytes of a text leaves the lines of the text (`Input.ofStream_toUTF8`). What a line is
evaluated as is what stays of it without its newline and the carriage returns at its end; whether these are taken off at
once or one after the other does not matter (`Text.map_strip_rawLines`). A dialogue is then the answers to its lines one
after another, each behind a sign (`converse_lines`), and what is answered is what a batch prints (`join_replies`).

Result:
- `run_stream`: session, complaints and answers of a dialogue are those of a batch on the text before its farewell.
-/
import LineCalc.Prompt
import LineCalc.Proofs.Batching

namespace LineCalc

/-! ## Bytes -/

/-- a byte of a character is the code of the character, or no ASCII code at all -/
theorem of_mem_utf8EncodeChar {c : Char} {b : UInt8} (h : b ∈ String.utf8EncodeChar c) :
    b.toNat = c.val.toNat ∨ 128 ≤ b.toNat := by
  have hbytes : b = UInt8.ofNat c.val.toNat ∧ c.val.toNat ≤ 127 ∨
      ∃ n : Nat, b = UInt8.ofNat n ∧ 128 ≤ n ∧ n < 256 := by
    -- one byte if the character is ASCII, otherwise a leading byte and continuations, which all have the high bit
    delta String.utf8EncodeChar at h
    dsimp only at h
    split_ifs at h with hone htwo hthree
    · exact Or.inl ⟨List.mem_singleton.1 h, hone⟩
    all_goals
      right
      simp only [List.mem_cons, List.not_mem_nil, or_false] at h
    · rcases h with h | h <;> exact ⟨_, h, by omega, by omega⟩
    · rcases h with h | h | h <;> exact ⟨_, h, by omega, by omega⟩
    · rcases h with h | h | h | h <;> exact ⟨_, h, by omega, by omega⟩
  rcases hbytes with ⟨rfl, hone⟩ | ⟨n, rfl, hlow, hhigh⟩
  · exact Or.inl (UInt8.toNat_ofNat_of_lt' (Nat.lt_of_le_of_lt hone (by decide)))
  · exact Or.inr (by rw [UInt8.toNat_ofNat_of_lt' hhigh]; exact hlow)

theorem newline_notMem_utf8EncodeChar {c : Char} (h : c ≠ '\n') : (10 : UInt8) ∉ String.utf8EncodeChar c := by
  intro hmem
  rcases of_mem_utf8EncodeChar hmem with hcode | hhigh
  · exact h (Char.ext (UInt32.toNat_inj.1 hcode.symm))
  · exact absurd hhigh (by decide)

/-- the bytes of a text are cut at the newlines of the text -/
theorem records_flatMap_utf8EncodeChar (cs : List Char) :
    Text.records 10 (cs.flatMap String.utf8EncodeChar) =
      (Text.records '\n' cs).map (·.flatMap String.utf8EncodeChar) := by
  induction cs with
  | nil => simp [Text.records]
  | cons c cs ih =>
    rw [List.flatMap_cons]
    by_cases hc : c = '\n'
    · subst hc
      have hbyte : String.utf8EncodeChar '\n' = [10] := by decide
      rw [hbyte, List.singleton_append, Text.records_cons_terminator, Text.records_cons_terminator, ih, List.map_cons]
      rfl
    · have hne : String.utf8EncodeChar c ≠ [] := by
        intro h
        have := String.length_utf8EncodeChar c
        rw [h] at this
        exact absurd this (Nat.ne_of_lt c.utf8Size_pos)
      rw [Text.records_append (newline_notMem_utf8EncodeChar hc) hne, ih, Text.records_cons_of_ne hc]
      cases Text.records '\n' cs <;> simp [Text.prepend]

theorem Input.ofBytes_utf8 (cs : List Char) :
    ofBytes (cs.flatMap String.utf8EncodeChar) = .line (String.ofList cs) := by
  have hbytes : (cs.flatMap String.utf8EncodeChar).toByteArray = (String.ofList cs).toByteArray :=
    String.toByteArray_ofList.symm
  have hread : String.fromUTF8? (String.ofList cs).toByteArray = some (String.ofList cs) := by
    delta String.fromUTF8?
    rw [dif_pos (String.ofList cs).isValidUTF8]
    rfl
  rw [ofBytes, hbytes, hread]

/-- the bytes of a text arrive as the lines of the text -/
theorem Input.ofStream_toUTF8 (text : String) : ofStream text.toUTF8.data.toList = (Text.lines text).map .line := by
  have hbytes : text.toUTF8.data.toList = text.toList.flatMap String.utf8EncodeChar := by
    rw [String.toUTF8_eq_toByteArray, ← String.utf8Encode_toList]
    exact List.toList_data_toByteArray
  rw [ofStream, hbytes, records_flatMap_utf8EncodeChar, Text.lines, List.map_map, List.map_map]
  exact List.map_congr_left fun cs _ => ofBytes_utf8 cs

/-! ## Lines with their newlines -/

namespace Text

/-- the lines of a list of characters, each with the newline that ends it -/
def rawLines : List Char → List (List Char)
  | [] => []
  | c :: cs => if c = '\n' then ['\n'] :: rawLines cs else prepend [c] (rawLines cs)

theorem rawLines_newline (cs : List Char) : rawLines ('\n' :: cs) = ['\n'] :: rawLines cs := by
  rw [rawLines, if_pos rfl]

theorem rawLines_cons_of_ne {c : Char} (h : c ≠ '\n') (cs : List Char) :
    rawLines (c :: cs) = prepend [c] (rawLines cs) := by
  rw [rawLines, if_neg h]

/-- no character is lost -/
theorem flatten_rawLines (cs : List Char) : (rawLines cs).flatten = cs := by
  induction cs with
  | nil => rfl
  | cons c cs ih =>
    by_cases hc : c = '\n'
    · subst hc
      rw [rawLines_newline, List.flatten_cons, ih, List.singleton_append]
    · rw [rawLines_cons_of_ne hc, flatten_prepend, ih, List.singleton_append]

/-- the first lines of a text, put together, have these lines again -/
theorem rawLines_flatten {cs : List Char} {xs : List (List Char)} (h : xs <+: rawLines cs) :
    rawLines xs.flatten = xs := by
  induction cs generalizing xs with
  | nil => rw [List.prefix_nil.1 h]; rfl
  | cons c cs ih =>
    cases xs with
    | nil => rfl
    | cons x xs =>
      by_cases hc : c = '\n'
      · subst hc
        rw [rawLines_newline] at h
        obtain ⟨rfl, hxs⟩ := List.cons_prefix_cons.1 h
        rw [List.flatten_cons, List.singleton_append, rawLines_newline, ih hxs]
      · rw [rawLines_cons_of_ne hc] at h
        cases hrest : rawLines cs with
        | nil =>
          rw [hrest] at h
          obtain ⟨rfl, hxs⟩ := List.cons_prefix_cons.1 h
          rw [List.prefix_nil.1 hxs]
          simp [rawLines, hc, prepend]
        | cons r rs =>
          rw [hrest] at h ih
          obtain ⟨rfl, hxs⟩ := List.cons_prefix_cons.1 h
          have hflat := ih (List.cons_prefix_cons.2 ⟨rfl, hxs⟩)
          rw [List.flatten_cons] at hflat
          rw [List.flatten_cons, List.append_assoc, List.singleton_append, rawLines_cons_of_ne hc, hflat]
          rfl

/-- a line without the newline and the carriage returns at its end -/
def strip (raw : List Char) : String :=
  String.ofList (trimEnd (fun c => c = '\n' || c = '\r') raw)

/-- Taking off newline and carriage returns at once leaves the same as cutting at the newlines first. -/
theorem map_strip_rawLines (text : String) : (rawLines text.toList).map strip = (lines text).map chomp := by
  have htrimmed : ∀ cs : List Char, (rawLines cs).map (trimEnd fun c => c = '\n' || c = '\r') =
      (records '\n' cs).map (trimEnd (· = '\r')) := by
    intro cs
    induction cs with
    | nil => simp [rawLines, records]
    | cons c cs ih =>
      by_cases hc : c = '\n'
      · subst hc
        rw [rawLines_newline, records_cons_terminator, List.map_cons, List.map_cons, ih]
        rfl
      · rw [rawLines_cons_of_ne hc, records_cons_of_ne hc]
        exact map_trimEnd_prepend ih (by simp [hc])
  have hstrip : (rawLines text.toList).map strip =
      ((rawLines text.toList).map (trimEnd fun c => c = '\n' || c = '\r')).map String.ofList := by
    simp [strip]
  rw [hstrip, htrimmed, map_chomp_lines]

end Text

/-! ## Dialogues -/

namespace Prompt

/-- whether a line ends a dialogue -/
def isFarewell (raw : List Char) : Bool :=
  Text.strip raw ∈ farewells

/-- the text in front of the first line that ends a dialogue, or all of it -/
def heard (text : String) : String :=
  String.ofList ((Text.rawLines text.toList).takeWhile (!isFarewell ·)).flatten

/-- what is heard is in front of the rest of the text, which is empty or begins with a farewell -/
theorem heard_append (text : String) :
    (heard text).toList ++ ((Text.rawLines text.toList).dropWhile (!isFarewell ·)).flatten = text.toList := by
  rw [heard, String.toList_ofList, ← List.flatten_append, List.takeWhile_append_dropWhile, Text.flatten_rawLines]

/-- the lines of what is heard are those in front of the first farewell -/
theorem strip_rawLines_heard (text : String) :
    (Text.rawLines (heard text).toList).map Text.strip =
      ((Text.lines text).map Text.chomp).takeWhile (· ∉ farewells) := by
  have hlines : Text.rawLines (heard text).toList = (Text.rawLines text.toList).takeWhile (!isFarewell ·) := by
    rw [heard, String.toList_ofList, Text.rawLines_flatten (List.takeWhile_prefix _)]
  have hwords : (fun raw => !isFarewell raw) = (fun line => decide (line ∉ farewells)) ∘ Text.strip := by
    funext raw
    simp [isFarewell]
  rw [hlines, hwords, ← List.takeWhile_map, Text.map_strip_rawLines]

theorem any_isFarewell (text : String) :
    (Text.rawLines text.toList).any isFarewell = ((Text.lines text).map Text.chomp).any (· ∈ farewells) := by
  rw [← Text.map_strip_rawLines, List.any_map]
  rfl

/-- what is printed about each of some lines, nothing for a blank one, each evaluated after those before it -/
def replies (style : Style) : Session → List String → List String
  | _, [] => []
  | s, line :: lines =>
    if Text.isBlankLine line then "" :: replies style s lines
    else
      let b := (Batch.start s).line style none line
      b.out :: replies style b.session lines

theorem farewell_ne_blank {line : String} (h : line ∈ farewells) : Text.isBlankLine line = false := by
  simp only [farewells, List.mem_cons, List.not_mem_nil, or_false] at h
  rcases h with rfl | rfl <;> decide

/-- put together, what is printed about some lines is what a batch prints -/
theorem join_replies (style : Style) (s : Session) (lines : List String) :
    String.join (replies style s lines) =
      ((Batch.start s).all style none (lines.filter fun line => !Text.isBlankLine line)).out := by
  induction lines generalizing s with
  | nil => rfl
  | cons line lines ih =>
    by_cases hblank : Text.isBlankLine line = true
    · simp [replies, hblank, ih]
    · rw [replies, if_neg hblank, String.join_cons, ih, List.filter_cons_of_pos (by simpa using hblank),
        Batch.all_start_cons]
      rfl

theorem converse_blank (style : Style) (b : Batch) {line : String} (h : Text.isBlankLine (Text.chomp line) = true)
    (rest : List Input) : converse style b (.line line :: rest) = converse style (b.print sign) rest := by
  simp [converse, answer, h]

theorem converse_farewell (style : Style) (b : Batch) {line : String} (h : Text.chomp line ∈ farewells)
    (rest : List Input) : converse style b (.line line :: rest) = b.print sign := by
  simp [converse, answer, h, farewell_ne_blank h]

theorem converse_other (style : Style) (b : Batch) {line : String}
    (hblank : ¬ Text.isBlankLine (Text.chomp line) = true) (h : Text.chomp line ∉ farewells) (rest : List Input) :
    let first := (Batch.start b.session).line style none (Text.chomp line)
    converse style b (.line line :: rest) =
      converse style ⟨first.session, b.out ++ sign ++ first.out, b.err ++ first.err, b.ok⟩ rest := by
  intro first
  have hline : (b.print sign).line style none (Text.chomp line) = (b.print sign).andThen first := Batch.line_eq ..
  simp only [converse, answer, hblank, h, hline, if_false, if_true, Bool.false_eq_true]
  rfl

theorem run_toUTF8 (style : Style) (b : Batch) (text : String) :
    run style b (Input.ofStream text.toUTF8.data.toList) = runText style b text := by
  rw [Input.ofStream_toUTF8, runText]

/-- A dialogue on some lines goes through the batch of those in front of the first farewell, with a sign before each
reply and one more at the end. -/
theorem converse_lines (style : Style) (b : Batch) (lines : List String) :
    let answered := (lines.map Text.chomp).takeWhile (· ∉ farewells)
    let batch := (Batch.start b.session).all style none (answered.filter fun line => !Text.isBlankLine line)
    let ending := if (lines.map Text.chomp).any (· ∈ farewells) then "" else "\n"
    converse style b (lines.map .line) =
      ⟨batch.session, b.out ++ (String.join ((replies style b.session answered).map (sign ++ ·)) ++ (sign ++ ending)),
        b.err ++ batch.err, b.ok⟩ := by
  intro answered batch ending
  induction lines generalizing b with
  | nil =>
    simp [converse, answer, Batch.print, answered, batch, ending, Batch.all, Batch.start, replies, String.append_assoc]
  | cons line lines ih =>
    rw [List.map_cons]
    by_cases hblank : Text.isBlankLine (Text.chomp line) = true
    · have hfarewell : Text.chomp line ∉ farewells := by
        intro h
        rw [farewell_ne_blank h] at hblank
        contradiction
      rw [converse_blank style b hblank, ih]
      simp [answered, batch, ending, hfarewell, hblank, replies, Batch.print, String.append_assoc]
    · by_cases hfarewell : Text.chomp line ∈ farewells
      · rw [converse_farewell style b hfarewell]
        simp [answered, batch, ending, hfarewell, replies, Batch.print, Batch.all, Batch.start]
      · rw [converse_other style b hblank hfarewell, ih]
        simp [answered, batch, ending, hfarewell, hblank, replies, Batch.all_start_cons, Batch.andThen,
          String.append_assoc]

/-- **The prompt answers a text as a batch does.** Let the bytes of a text arrive at the prompt, in any session. What
comes in front of its first line that is `exit` or `quit`, but for the newline and the carriage returns at its end, is
`heard`, and the lines from there on are the rest of the text. The dialogue leaves the session of a batch on what is
heard and complains about the same. It prints the banner, then a sign and the reply for each line that is heard, and a
sign at the end, with a newline only where no line ended the dialogue; the replies put together are what the batch
prints. -/
theorem run_stream (style : Style) (s : Session) (text : String) :
    let dialogue := run style (.start s) (Input.ofStream text.toUTF8.data.toList)
    let batch := (Batch.start s).text style none (heard text)
    let said := replies style s ((Text.rawLines (heard text).toList).map Text.strip)
    let unheard := (Text.rawLines text.toList).dropWhile (!isFarewell ·)
    let ending := if (Text.rawLines text.toList).any isFarewell then "" else "\n"
    (heard text).toList ++ unheard.flatten = text.toList ∧ dialogue.session = batch.session ∧
      dialogue.err = batch.err ∧ batch.out = String.join said ∧
      dialogue.out = banner ++ (String.join (said.map (sign ++ ·)) ++ (sign ++ ending)) := by
  intro dialogue batch said unheard ending
  let answered := ((Text.lines text).map Text.chomp).takeWhile (· ∉ farewells)
  have hsaid : said = replies style s answered := by simp only [said, strip_rawLines_heard, answered]
  have hbatch : batch = (Batch.start s).all style none (answered.filter fun line => !Text.isBlankLine line) := by
    simp only [answered, ← strip_rawLines_heard, Text.map_strip_rawLines]
    rfl
  have hdialogue : dialogue = ⟨batch.session, banner ++ (String.join (said.map (sign ++ ·)) ++ (sign ++ ending)),
      batch.err, true⟩ := by
    have hrun := converse_lines style ((Batch.start s).print banner) (Text.lines text)
    simp only [Batch.print, Batch.start, String.empty_append] at hrun
    simp only [dialogue, run_toUTF8, ending, any_isFarewell, hbatch, hsaid]
    exact hrun
  have hout : batch.out = String.join said := by rw [hbatch, hsaid, join_replies]
  rw [hdialogue]
  exact ⟨heard_append text, rfl, rfl, hout, rfl⟩

/-- a blank line has a sign and no reply, and what follows the farewell is not read -/
example :
    runText .plain (.start (Session.start Session.defaultLimit)) "x = 2\r\n \nexit\r\nx = 3" =
      ⟨⟨⟨[⟨"x", 2, true, 1⟩]⟩, 1023⟩, banner ++ "> 2\n> > ", "", true⟩ := by decide +kernel

end Prompt

end LineCalc
