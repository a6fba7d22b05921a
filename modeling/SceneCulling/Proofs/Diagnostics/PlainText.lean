import SceneCulling.Diagnostics.Console

/-!
# The console and the plain text

The line of an entry is laid out twice: as plain text, and as the pieces that the console shows in
colour. Without colour the console prints the plain text. With colour it prints the same once the
escape sequences are removed, provided the free texts in the line hold none of their own.

Removing escape sequences goes through a text once and drops each sequence that is complete. A text
without an escape character is kept as it is, also if it looks like the rest of a sequence.
-/

namespace SceneCulling.Console

/-- The characters of display codes. -/
def isCode (c : Char) : Bool := c.isDigit || c == ';'

/-- The rest of a text after display codes and the letter that ends a sequence. -/
def afterCodes? (text : List Char) : Option (List Char) :=
  match text.dropWhile isCode with
  | [] => none
  | c :: rest => if c = 'm' then some rest else none

/-- The rest of a text after an escape sequence, of which the escape character has been read. -/
def afterSequence? : List Char → Option (List Char)
  | [] => none
  | c :: text => if c = '[' then afterCodes? text else none

theorem eq_of_afterCodes? {text rest : List Char} (h : afterCodes? text = some rest) :
    ∃ codes, codes.all isCode = true ∧ text = codes ++ 'm' :: rest := by
  have hsplit := List.takeWhile_append_dropWhile (p := isCode) (l := text)
  refine ⟨text.takeWhile isCode, List.all_takeWhile, ?_⟩
  rw [afterCodes?] at h
  split at h
  · cases h
  · next c after hdrop =>
    split at h
    · next hend => rw [← hend, ← Option.some.inj h, ← hdrop, hsplit]
    · cases h

theorem eq_of_afterSequence? {text rest : List Char} (h : afterSequence? text = some rest) :
    ∃ codes, codes.all isCode = true ∧ '\x1b' :: text = escape codes ++ rest := by
  cases text with
  | nil => cases h
  | cons c text =>
      rw [afterSequence?] at h
      split at h
      · next hstart =>
        obtain ⟨codes, hcodes, rfl⟩ := eq_of_afterCodes? h
        exact ⟨codes, hcodes, by simp [escape, hstart]⟩
      · cases h

theorem length_lt_of_afterSequence? {text rest : List Char} (h : afterSequence? text = some rest) :
    rest.length < text.length := by
  obtain ⟨codes, -, htext⟩ := eq_of_afterSequence? h
  have hlength := congrArg List.length htext
  simp only [escape, List.length_append, List.length_cons, List.length_nil] at hlength
  omega

/-- A text without its escape sequences. An escape character that begins no sequence stays. -/
def withoutSequences : List Char → List Char
  | [] => []
  | c :: text =>
    if c = '\x1b' then
      match _h : afterSequence? text with
      | some rest => withoutSequences rest
      | none => c :: withoutSequences text
    else c :: withoutSequences text
termination_by text => text.length
decreasing_by
  · have hshorter := length_lt_of_afterSequence? _h
    rw [List.length_cons]
    omega
  · exact Nat.lt_succ_self _
  · exact Nat.lt_succ_self _

/-- A text as it is read when the escape sequences have taken effect. -/
def withoutEscapes (text : String) : String := String.ofList (withoutSequences text.toList)

/-! ## Removing escape sequences -/

@[simp] theorem withoutSequences_nil : withoutSequences [] = [] := by rw [withoutSequences]

theorem withoutSequences_cons_of_ne {c : Char} (h : c ≠ '\x1b') (text : List Char) :
    withoutSequences (c :: text) = c :: withoutSequences text := by
  rw [withoutSequences, if_neg h]

theorem withoutSequences_of_some {text rest : List Char} (h : afterSequence? text = some rest) :
    withoutSequences ('\x1b' :: text) = withoutSequences rest := by
  rw [withoutSequences, if_pos rfl]
  split
  · next hrest => rw [Option.some.inj (hrest.symm.trans h)]
  · next hnone => cases hnone.symm.trans h

theorem withoutSequences_of_none {text : List Char} (h : afterSequence? text = none) :
    withoutSequences ('\x1b' :: text) = '\x1b' :: withoutSequences text := by
  rw [withoutSequences, if_pos rfl]
  split
  · next hsome => cases hsome.symm.trans h
  · rfl

/-- A text without an escape character is kept, whatever follows it. -/
theorem withoutSequences_append {text : List Char} (h : '\x1b' ∉ text) (rest : List Char) :
    withoutSequences (text ++ rest) = text ++ withoutSequences rest := by
  induction text with
  | nil => rfl
  | cons c text ih =>
      rw [List.cons_append, withoutSequences_cons_of_ne (List.ne_of_not_mem_cons h).symm,
        ih (List.not_mem_of_not_mem_cons h), List.cons_append]

theorem withoutSequences_of_not_mem {text : List Char} (h : '\x1b' ∉ text) :
    withoutSequences text = text := by
  simpa using withoutSequences_append h []

theorem afterCodes?_append {codes : List Char} (h : codes.all isCode = true)
    (rest : List Char) : afterCodes? (codes ++ 'm' :: rest) = some rest := by
  have hdrop : (codes ++ 'm' :: rest).dropWhile isCode = 'm' :: rest := by
    rw [List.dropWhile_append_of_pos (List.all_eq_true.mp h),
      List.dropWhile_cons_of_neg (by decide)]
  rw [afterCodes?, hdrop]
  rfl

/-- A sequence that switches display codes on or off is removed. -/
theorem withoutSequences_escape {codes : List Char} (h : codes.all isCode = true)
    (rest : List Char) : withoutSequences (escape codes ++ rest) = withoutSequences rest := by
  have hescape : escape codes ++ rest = '\x1b' :: '[' :: (codes ++ 'm' :: rest) := by
    simp [escape]
  have hafter : afterSequence? ('[' :: (codes ++ 'm' :: rest)) = some rest :=
    afterCodes?_append h rest
  rw [hescape, withoutSequences_of_some hafter]

/-! ## Texts that may hold sequences -/

/-- A complete escape sequence stands somewhere in the text. -/
def HasSequence (text : List Char) : Prop :=
  ∃ before codes rest, codes.all isCode = true ∧ text = before ++ (escape codes ++ rest)

theorem HasSequence.cons {text : List Char} (h : HasSequence text) (c : Char) :
    HasSequence (c :: text) := by
  obtain ⟨before, codes, rest, hcodes, rfl⟩ := h
  exact ⟨c :: before, codes, rest, hcodes, rfl⟩

theorem length_withoutSequences_le (text : List Char) :
    (withoutSequences text).length ≤ text.length := by
  induction text using withoutSequences.induct with
  | case1 => simp
  | case2 text rest hrest ih =>
      have hshorter := length_lt_of_afterSequence? hrest
      rw [withoutSequences_of_some hrest, List.length_cons]
      omega
  | case3 text hnone ih =>
      rw [withoutSequences_of_none hnone]
      exact Nat.succ_le_succ ih
  | case4 c text hne ih =>
      rw [withoutSequences_cons_of_ne hne]
      exact Nat.succ_le_succ ih

/-- A text that loses a sequence becomes shorter. -/
theorem withoutSequences_ne_of_some {text rest : List Char} (h : afterSequence? text = some rest) :
    withoutSequences ('\x1b' :: text) ≠ '\x1b' :: text := by
  intro hsame
  have hlength := length_withoutSequences_le rest
  have hshorter := length_lt_of_afterSequence? h
  rw [← withoutSequences_of_some h, hsame, List.length_cons] at hlength
  omega

/-- The texts that are kept are those in which no sequence is complete. -/
theorem withoutSequences_eq_self_iff {text : List Char} :
    withoutSequences text = text ↔ ¬HasSequence text := by
  constructor
  · rintro hsame ⟨before, codes, rest, hcodes, rfl⟩
    -- reading a prefix either keeps its first character or drops a sequence that begins there
    induction before with
    | nil =>
        have hlength := length_withoutSequences_le rest
        rw [List.nil_append, withoutSequences_escape hcodes] at hsame
        rw [hsame] at hlength
        simp only [escape, List.length_append, List.length_cons] at hlength
        omega
    | cons c before ih =>
        rw [List.cons_append] at hsame
        by_cases hc : c = '\x1b'
        · subst hc
          cases hafter : afterSequence? (before ++ (escape codes ++ rest)) with
          | some after => exact withoutSequences_ne_of_some hafter hsame
          | none =>
              rw [withoutSequences_of_none hafter] at hsame
              exact ih (List.cons.inj hsame).2
        · rw [withoutSequences_cons_of_ne hc] at hsame
          exact ih (List.cons.inj hsame).2
  · intro hnot
    induction text using withoutSequences.induct with
    | case1 => exact withoutSequences_nil
    | case2 text rest hrest =>
        obtain ⟨codes, hcodes, htext⟩ := eq_of_afterSequence? hrest
        exact absurd ⟨[], codes, rest, hcodes, htext⟩ hnot
    | case3 text hnone ih =>
        rw [withoutSequences_of_none hnone, ih fun h => hnot (h.cons _)]
    | case4 c text hne ih =>
        rw [withoutSequences_cons_of_ne hne, ih fun h => hnot (h.cons _)]

/-- What follows a character that belongs to no sequence does not complete one. -/
theorem afterCodes?_stop {stop : Char} (hcode : isCode stop = false) (hend : stop ≠ 'm')
    (text rest : List Char) : afterCodes? (text ++ stop :: rest) =
      (afterCodes? text).map fun after => after ++ stop :: rest := by
  rw [afterCodes?, afterCodes?, List.dropWhile_append]
  cases text.dropWhile isCode with
  | nil =>
      rw [List.isEmpty_nil, if_pos rfl, List.dropWhile_cons_of_neg (by simp [hcode])]
      exact if_neg hend
  | cons c after =>
      rw [if_neg (by simp), List.cons_append]
      dsimp only
      split <;> rfl

theorem afterSequence?_stop {stop : Char} (hstart : stop ≠ '[') (hcode : isCode stop = false)
    (hend : stop ≠ 'm') (text rest : List Char) : afterSequence? (text ++ stop :: rest) =
      (afterSequence? text).map fun after => after ++ stop :: rest := by
  cases text with
  | nil => exact if_neg hstart
  | cons c text =>
      rw [List.cons_append, afterSequence?, afterSequence?]
      split
      · exact afterCodes?_stop hcode hend text rest
      · rfl

/-- Up to such a character a text is read on its own. The recursion jumps over a sequence, so the
induction follows its calls. -/
theorem withoutSequences_stop {stop : Char} (hstart : stop ≠ '[') (hcode : isCode stop = false)
    (hend : stop ≠ 'm') (text rest : List Char) : withoutSequences (text ++ stop :: rest) =
      withoutSequences text ++ withoutSequences (stop :: rest) := by
  induction text using withoutSequences.induct with
  | case1 => rw [List.nil_append, withoutSequences_nil, List.nil_append]
  | case2 text after hafter ih =>
      have happend : afterSequence? (text ++ stop :: rest) = some (after ++ stop :: rest) := by
        rw [afterSequence?_stop hstart hcode hend, hafter, Option.map_some]
      rw [List.cons_append, withoutSequences_of_some happend, withoutSequences_of_some hafter, ih]
  | case3 text hnone ih =>
      have happend : afterSequence? (text ++ stop :: rest) = none := by
        rw [afterSequence?_stop hstart hcode hend, hnone, Option.map_none]
      rw [List.cons_append, withoutSequences_of_none happend, withoutSequences_of_none hnone, ih,
        List.cons_append]
  | case4 c text hne ih =>
      rw [List.cons_append, withoutSequences_cons_of_ne hne, withoutSequences_cons_of_ne hne, ih,
        List.cons_append]

/-! ## Pieces of a line -/

theorem keepOn_of_not_mem (codes : List Char) {text : List Char} (h : '\x1b' ∉ text) :
    keepOn codes text = text := by
  induction text with
  | nil => rfl
  | cons c text ih =>
      rw [keepOn, ih (List.not_mem_of_not_mem_cons h)]
      rintro rest rfl -
      exact h List.mem_cons_self

namespace Span

/-- The text of a piece, without its style. -/
def text : Span → String
  | plain text => text
  | styled _ text => text

/-- The text of the piece holds no escape character, and its style holds codes only. -/
def IsClean : Span → Prop
  | plain text => '\x1b' ∉ text.toList
  | styled style text => style.codes.toList.all isCode = true ∧ '\x1b' ∉ text.toList

theorem render_false (span : Span) : span.render false = span.text := by
  cases span <;> rfl

/-- The colour of a clean piece is removed with its escape sequences. -/
theorem IsClean.withoutSequences_render {span : Span} (h : span.IsClean) (rest : List Char) :
    withoutSequences ((span.render true).toList ++ rest) =
      span.text.toList ++ withoutSequences rest := by
  cases span with
  | plain text => exact withoutSequences_append h rest
  | styled style text =>
      obtain ⟨hcodes, htext⟩ := h
      have hrender : ((styled style text).render true).toList ++ rest =
          escape style.codes.toList ++ (text.toList ++ (escape ['0'] ++ rest)) := by
        rw [render, if_pos rfl, Style.paint, String.toList_ofList, keepOn_of_not_mem _ htext,
          List.append_assoc, List.append_assoc]
      rw [hrender, withoutSequences_escape hcodes, withoutSequences_append htext,
        withoutSequences_escape (by decide)]
      rfl

end Span

/-- The text of some pieces one after the other. -/
def lineText (spans : List Span) : List Char := spans.flatMap fun span => span.text.toList

theorem withoutSequences_spans {spans : List Span} (h : ∀ span ∈ spans, span.IsClean)
    (rest : List Char) :
    withoutSequences ((spans.flatMap fun span => (span.render true).toList) ++ rest) =
      lineText spans ++ withoutSequences rest := by
  induction spans with
  | nil => rfl
  | cons span spans ih =>
      rw [List.flatMap_cons, List.append_assoc,
        (h span List.mem_cons_self).withoutSequences_render,
        ih fun other hother => h other (List.mem_cons_of_mem _ hother), lineText, lineText,
        List.flatMap_cons, List.append_assoc]

/-! ## Texts without an escape character -/

theorem not_mem_digits (n : Nat) : '\x1b' ∉ Nat.toDigits 10 n := fun h =>
  absurd (Nat.isDigit_of_mem_toDigits (by decide) (by decide) h) (by decide)

theorem not_mem_padded (width n : Nat) : '\x1b' ∉ (Timestamp.padded width n).toList := by
  rw [Timestamp.padded, String.toList_ofList, List.mem_append, not_or, Nat.toString_eq_repr,
    Nat.toList_repr]
  exact ⟨fun h => absurd (List.eq_of_mem_replicate h) (by decide), not_mem_digits n⟩

theorem not_mem_timestamp (time : Timestamp) : '\x1b' ∉ time.text.toList := by
  have hyear (year : Int) : '\x1b' ∉ (Timestamp.yearText year).toList := by
    rw [Timestamp.yearText]
    split
    · exact not_mem_padded _ _
    · split <;> simp [not_mem_padded]
  simp [Timestamp.text, hyear, not_mem_padded]

/-! ## Lines -/

/-- The pieces of a line up to the location. -/
def front (entry : Entry) (time : Timestamp) : List Span :=
  [.plain "[", .plain time.text, .plain "] [",
    .styled (severityStyle entry.severity) entry.severity.label, .plain "] [",
    .styled sourceStyle entry.source, .plain "] ", .plain entry.message]

/-- The pieces of a location. -/
def locationSpans (file : String) (line : Nat) : List Span :=
  [.plain " (", .plain file, .plain ":", .plain (toString line), .plain ")"]

variable {entry : Entry} {time : Timestamp} {file : String} {line : Nat}

theorem spans_of_none (h : entry.location? = none) : spans entry time = front entry time := by
  rcases entry with ⟨severity, source, message, _ | file, _ | line⟩
  · rfl
  · rfl
  · rfl
  · cases h

theorem spans_of_some (h : entry.location? = some (file, line)) :
    spans entry time = front entry time ++ locationSpans file line := by
  rcases entry with ⟨severity, source, message, _ | file, _ | line⟩
  · cases h
  · cases h
  · cases h
  · cases h
    rfl

theorem toList_plainText (entry : Entry) (time : Timestamp) :
    (entry.plainText time).toList =
      lineText (front entry time) ++ entry.locationText.toList := by
  simp [Entry.plainText, lineText, front, Span.text]

theorem toList_print (colour : Bool) (entry : Entry) (time : Timestamp) :
    (print colour entry time).toList =
      ((spans entry time).flatMap fun span => (span.render colour).toList) ++ ['\n'] := by
  simp [print, List.flatMap_map]

/-- Without colour the console prints the plain text. -/
theorem print_plain (entry : Entry) (time : Timestamp) :
    print false entry time = entry.plainText time ++ "\n" := by
  rw [← String.toList_inj, toList_print, String.toList_append, toList_plainText]
  simp only [Span.render_false]
  cases h : entry.location? with
  | none => simp [spans_of_none h, Entry.locationText, h, lineText]
  | some place => simp [spans_of_some h, Entry.locationText, h, lineText, locationSpans, Span.text]

theorem isClean_front (hsource : '\x1b' ∉ entry.source.toList)
    (hmessage : '\x1b' ∉ entry.message.toList) : ∀ span ∈ front entry time, span.IsClean := by
  have hlabel : (Span.styled (severityStyle entry.severity) entry.severity.label).IsClean := by
    cases entry.severity <;> exact ⟨by decide, by decide⟩
  have hsourceSpan : (Span.styled sourceStyle entry.source).IsClean := ⟨by decide, hsource⟩
  simp only [front, List.forall_mem_cons, Span.IsClean, not_mem_timestamp, hmessage,
    not_false_eq_true, true_and]
  exact ⟨by decide, by decide, hlabel, by decide, hsourceSpan, by decide, fun _ h => by cases h⟩

/-- The entry with the file that a reader sees. -/
def legible (entry : Entry) : Entry := { entry with file := entry.file.map withoutEscapes }

theorem location?_legible (entry : Entry) : (legible entry).location? =
    entry.location?.map fun (file, line) => (withoutEscapes file, line) := by
  rcases entry with ⟨severity, source, message, _ | file, _ | line⟩ <;> rfl

/-- Without its escape sequences a line in colour is the plain text, but for the sequences that the
file has of its own. -/
theorem withoutEscapes_print (hsource : '\x1b' ∉ entry.source.toList)
    (hmessage : '\x1b' ∉ entry.message.toList) :
    withoutEscapes (print true entry time) = (legible entry).plainText time ++ "\n" := by
  have hfront : ∀ span ∈ front entry time, span.IsClean := isClean_front hsource hmessage
  rw [← String.toList_inj, String.toList_append, toList_plainText, Entry.locationText,
    location?_legible, withoutEscapes, String.toList_ofList, toList_print]
  cases h : entry.location? with
  | none =>
      rw [spans_of_none h, withoutSequences_spans hfront,
        withoutSequences_of_not_mem (by decide : '\x1b' ∉ ['\n'])]
      simp [front, legible]
  | some place =>
      obtain ⟨file, line⟩ := place
      have hspans : ((locationSpans file line).flatMap fun span => (span.render true).toList) ++
          ['\n'] =
            " (".toList ++ (file.toList ++ ':' :: ((toString line).toList ++ [')', '\n'])) := by
        simp [locationSpans, Span.render]
      have hline : withoutSequences (':' :: ((toString line).toList ++ [')', '\n'])) =
          ':' :: ((toString line).toList ++ [')', '\n']) :=
        withoutSequences_of_not_mem (by simp [not_mem_digits])
      rw [spans_of_some h, List.flatMap_append, List.append_assoc, hspans,
        withoutSequences_spans hfront, withoutSequences_append (by decide),
        withoutSequences_stop (by decide) (by decide) (by decide), hline]
      simp [front, legible, withoutEscapes]

/-- The line of an entry is laid out alike in both forms. Without colour the console prints the
plain text. With colour, if the source and the message hold no escape character, it prints the plain
text once the escape sequences are removed, exactly if the file that is shown has none. -/
theorem print_agrees (entry : Entry) (time : Timestamp) :
    print false entry time = entry.plainText time ++ "\n" ∧
      ('\x1b' ∉ entry.source.toList → '\x1b' ∉ entry.message.toList →
        (withoutEscapes (print true entry time) = entry.plainText time ++ "\n" ↔
          ∀ file line, entry.location? = some (file, line) → ¬HasSequence file.toList)) := by
  refine ⟨print_plain entry time, fun hsource hmessage => ?_⟩
  have hplain : (legible entry).plainText time ++ "\n" = entry.plainText time ++ "\n" ↔
      (legible entry).locationText = entry.locationText := by
    rw [← String.toList_inj, ← String.toList_inj]
    simp [toList_plainText, front, legible]
  rw [withoutEscapes_print hsource hmessage, hplain, Entry.locationText, Entry.locationText,
    location?_legible]
  cases entry.location? with
  | none => simp
  | some place =>
      obtain ⟨file, line⟩ := place
      have hfile : " (" ++ withoutEscapes file ++ ":" ++ toString line ++ ")" =
          " (" ++ file ++ ":" ++ toString line ++ ")" ↔ ¬HasSequence file.toList := by
        rw [← withoutSequences_eq_self_iff]
        simp [← String.toList_inj, withoutEscapes]
      refine hfile.trans ⟨?_, fun h => h file line rfl⟩
      rintro h _ _ ⟨⟩
      exact h

/-- An entry whose texts only look like parts of escape sequences. In the file a sequence begins,
which is never completed. -/
def lookalike : Entry where
  severity := .error
  source := "[94m;0m"
  message := "[0m]"
  file := some "\x1b[31.rs"
  line := some 7

theorem lookalike_agrees :
    let time : Timestamp := .ofSeconds 1700000000 5000000
    '\x1b' ∉ lookalike.source.toList ∧ '\x1b' ∉ lookalike.message.toList ∧
      lookalike.location? = some ("\x1b[31.rs", 7) ∧ ¬HasSequence "\x1b[31.rs".toList ∧
      lookalike.plainText time =
        "[2023-11-14 22:13:20.005] [ERROR] [[94m;0m] [0m] (\x1b[31.rs:7)" ∧
      print false lookalike time = lookalike.plainText time ++ "\n" ∧
      withoutEscapes (print true lookalike time) = lookalike.plainText time ++ "\n" := by
  intro time
  have hsource : '\x1b' ∉ lookalike.source.toList := by decide
  have hmessage : '\x1b' ∉ lookalike.message.toList := by decide
  have hfile : ¬HasSequence "\x1b[31.rs".toList := by
    rw [← withoutSequences_eq_self_iff]
    have hkept : withoutSequences "[31.rs".toList = "[31.rs".toList :=
      withoutSequences_of_not_mem (by decide)
    exact (withoutSequences_of_none rfl).trans (congrArg _ hkept)
  obtain ⟨hplain, hcolour⟩ := print_agrees lookalike time
  refine ⟨hsource, hmessage, rfl, hfile, by decide +kernel, hplain, ?_⟩
  refine (hcolour hsource hmessage).mpr fun file line h => ?_
  obtain ⟨rfl, -⟩ := Prod.mk.inj (Option.some.inj h)
  exact hfile

/-- An entry whose file begins with an escape sequence. -/
def paintedFile : Entry where
  severity := .info
  source := "stage"
  message := "ready"
  file := some "\x1b[31mmain.rs"
  line := some 1

/-- The sequence in the file is removed with the others, though the plain text has it. -/
theorem paintedFile_differs :
    let time : Timestamp := .ofSeconds 0 0
    '\x1b' ∉ paintedFile.source.toList ∧ '\x1b' ∉ paintedFile.message.toList ∧
      withoutEscapes (print true paintedFile time) ≠ paintedFile.plainText time ++ "\n" := by
  intro time
  have hsource : '\x1b' ∉ paintedFile.source.toList := by decide
  have hmessage : '\x1b' ∉ paintedFile.message.toList := by decide
  have hfile : withoutEscapes "\x1b[31mmain.rs" = "main.rs" := by
    have hsequence :
        withoutSequences (escape ['3', '1'] ++ "main.rs".toList) = "main.rs".toList := by
      rw [withoutSequences_escape (by decide), withoutSequences_of_not_mem (by decide)]
    exact String.toList_inj.mp (String.toList_ofList.trans hsequence)
  refine ⟨hsource, hmessage, ?_⟩
  rw [withoutEscapes_print hsource hmessage, legible, paintedFile, Option.map_some, hfile]
  decide +kernel

end SceneCulling.Console
