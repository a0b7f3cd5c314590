import Mathlib.Data.List.TakeWhile
import LoggerBenchmarks.CheckoutRoot

set_option autoImplicit false

/-!
# Reading back a throughput

Twelve programs print one line in two spellings; `run_all.py` puts the path of the
program in front of it and `generate_tables.py` looks for both in the file.
-/
namespace LoggerBenchmarks.ThroughputRoundTrip
open BacktrackingRegex RegexLocality PythonText PosixPaths BenchmarkRunner ResultFileParser LatencyPatterns CheckoutRoot

structure Numeral where
  whole : Text
  fraction : Option Text
  whole_digits : whole ≠ [] ∧ ∀ c ∈ whole, isAsciiDigit c = true
  fraction_digits : ∀ f ∈ fraction, f ≠ [] ∧ ∀ c ∈ f, isAsciiDigit c = true

def Numeral.text (t : Numeral) : Text := t.whole ++ t.fraction.elim [] ('.' :: ·)

def averageWords : Text := "million msgs/sec average,".toList

def elapsedWords : Text := "total time elapsed:".toList

inductive Spelling where
  | format
  | stream

/-- What a program prints at its end; the twelve differ behind the elapsed time. -/
def printedLine (spelling : Spelling) (throughput : Text) (elapsedMs : ℕ) (fileSize : Text) : Text :=
  match spelling with
  | .format => "throughput is ".toList ++ throughput ++ " million msgs/sec average, total time elapsed: ".toList ++
      str elapsedMs ++ " ms, log file size ".toList ++ fileSize ++ " MB \n".toList ++ "\n".toList
  | .stream => "throughput is ".toList ++ throughput ++ " million msgs/sec average, ".toList ++
      "total time elapsed: ".toList ++ str elapsedMs ++ " ms, ".toList ++ "log file size ".toList ++ fileSize ++
      " MB".toList ++ "\n".toList

def measured (t : Text) (ms : ℕ) (rest : Text) : Text :=
  "throughput is".toList ++ ([' '] ++ (t ++ ([' '] ++ (averageWords ++ ([' '] ++ (elapsedWords ++ ([' '] ++
    (str ms ++ ([' '] ++ ("ms".toList ++ rest))))))))))

section Find

variable {β : Type} (f : Cursor Char × List (Capture Char) → Option β)

theorem find_blank (b xs : Text) (hx : ∀ c ∈ xs.head?, isSpace c = false) {v : β}
    (h : f (⟨' ' :: b, xs⟩, []) = some v) : (Pattern.plus isSpace).find ⟨b, [' '] ++ xs⟩ f = some v :=
  find_plus_span isSpace b [' '] xs (List.cons_ne_nil _ _) (List.forall_mem_singleton.2 (by decide)) hx f h

def numeralPattern : Pattern Char :=
  .seq (.plus isAsciiDigit) (.opt (.seq (.one (· == '.')) (.plus isAsciiDigit)))

theorem find_numeral (t : Numeral) (b xs : Text) {v : β}
    (h : f (⟨t.text.reverse ++ b, ' ' :: xs⟩, []) = some v) :
    numeralPattern.find ⟨b, t.text ++ ' ' :: xs⟩ f = some v := by
  have hblank : ∀ c ∈ (' ' :: xs).head?, isAsciiDigit c = false := by
    rintro c ⟨⟩
    decide
  obtain ⟨whole, fraction, ⟨hne, hdigits⟩, hfraction⟩ := t
  rw [numeralPattern, find_seq]
  cases fraction with
  | none =>
    simp only [Numeral.text, Option.elim_none, List.append_nil] at h ⊢
    refine find_plus_span _ b whole (' ' :: xs) hne hdigits hblank _ ?_
    rw [find_opt, find_seq, find_one_cons, if_neg (by decide), Option.none_or]
    exact h
  | some digits =>
    obtain ⟨hne', hdigits'⟩ := hfraction digits rfl
    simp only [Numeral.text, Option.elim_some, List.append_assoc, List.cons_append] at h ⊢
    refine find_plus_span _ b whole ('.' :: (digits ++ ' ' :: xs)) hne hdigits ?_ _ ?_
    · rintro c ⟨⟩
      decide
    · rw [find_opt, find_seq, find_one_cons, if_pos (by decide)]
      have hinner := find_plus_span isAsciiDigit ('.' :: (whole.reverse ++ b)) digits (' ' :: xs) hne' hdigits'
        hblank (fun m => f (m.1, [] ++ ([] ++ m.2))) (v := v) (by simpa using h)
      rw [hinner, Option.some_or]

theorem find_group_numeral (t : Numeral) (b xs : Text) {v : β}
    (h : f (⟨t.text.reverse ++ b, ' ' :: xs⟩, [⟨b.length, t.text⟩]) = some v) :
    (Pattern.group numeralPattern).find ⟨b, t.text ++ ' ' :: xs⟩ f = some v := by
  rw [find_group]
  apply find_numeral
  simpa only [Cursor.pos, capture_take] using h

end Find

theorem throughputPattern_eq : throughputPattern = .seq (.literal "throughput is".toList) (.seq (.plus isSpace)
    (.seq (.group numeralPattern) (.seq (.plus isSpace) (.seq (.literal averageWords) (.seq (.plus isSpace)
      (.seq (.literal elapsedWords) (.seq (.plus isSpace) (.seq (.group (.plus isDecimal))
        (.seq (.plus isSpace) (.literal "ms".toList)))))))))) := rfl

theorem head_append {w : Text} (hne : w ≠ []) (hw : ∀ c ∈ w.head?, isSpace c = false) (xs : Text) :
    ∀ c ∈ (w ++ xs).head?, isSpace c = false := by
  rwa [List.head?_append_of_ne_nil _ hne]

theorem head_of_any {w : Text} (h : (w.head?.any fun c => !isSpace c) = true) : ∀ c ∈ w.head?, isSpace c = false := by
  intro c hc
  rw [Option.mem_def.1 hc, Option.any_some] at h
  simpa using h

theorem Numeral.text_ne_nil (t : Numeral) : t.text ≠ [] :=
  List.append_ne_nil_of_left_ne_nil t.whole_digits.1 _

theorem Numeral.head_text (t : Numeral) : ∀ c ∈ t.text.head?, isSpace c = false := by
  intro c hc
  rw [Numeral.text, List.head?_append_of_ne_nil _ t.whole_digits.1] at hc
  exact isSpace_of_isDigit (t.whole_digits.2 c (List.mem_of_mem_head? hc))

theorem matchAt_measured (b : Text) (t : Numeral) (ms : ℕ) (rest : Text) :
    ∃ m, throughputPattern.matchAt ⟨b, measured t.text ms rest⟩ = some m ∧ m.text 0 = t.text ∧
      m.text 1 = str ms := by
  have hstr : ∀ c ∈ (str ms).head?, isSpace c = false :=
    fun c hc => isSpace_of_isDigit (str_isDigit (List.mem_of_mem_head? hc))
  have hdigits : ∀ c ∈ str ms, isDecimal c = true := fun c hc => isDecimal_of_isDigit (str_isDigit hc)
  have hblank : ∀ xs : Text, ∀ c ∈ ([' '] ++ xs).head?, isDecimal c = false := by
    rintro xs c ⟨⟩
    decide
  unfold measured
  apply Exists.intro
  apply And.intro
  · rw [matchAt_eq_find, throughputPattern_eq, find_seq, find_literal_append, find_seq]
    apply find_blank _ _ _ (head_append t.text_ne_nil t.head_text _)
    rw [find_seq]
    apply find_group_numeral
    rw [find_seq]
    apply find_blank _ _ _ (head_append (by decide) (head_of_any (by decide)) _)
    rw [find_seq, find_literal_append, find_seq]
    apply find_blank _ _ _ (head_append (by decide) (head_of_any (by decide)) _)
    rw [find_seq, find_literal_append, find_seq]
    apply find_blank _ _ _ (head_append (str_ne_nil ms) hstr _)
    rw [find_seq]
    apply find_group_plus_span isDecimal _ (str ms) _ (str_ne_nil ms) hdigits (hblank _)
    rw [find_seq]
    apply find_blank _ _ _ (head_append (by decide) (head_of_any (by decide)) _)
    rw [find_literal_append]
  · exact ⟨rfl, rfl⟩

theorem printedLine_eq (spelling : Spelling) (throughput : Text) (elapsedMs : ℕ) (fileSize : Text) :
    ∃ rest, printedLine spelling throughput elapsedMs fileSize = measured throughput elapsedMs rest := by
  have hwords : "throughput is ".toList = "throughput is".toList ++ [' '] := by decide
  have haverage : " million msgs/sec average, total time elapsed: ".toList =
      [' '] ++ (averageWords ++ ([' '] ++ (elapsedWords ++ [' ']))) := by decide
  have haverage' : " million msgs/sec average, ".toList = [' '] ++ (averageWords ++ [' ']) := by decide
  have helapsed : "total time elapsed: ".toList = elapsedWords ++ [' '] := by decide
  have hsize : " ms, log file size ".toList = [' '] ++ ("ms".toList ++ ", log file size ".toList) := by decide
  have hunit : " ms, ".toList = [' '] ++ ("ms".toList ++ ", ".toList) := by decide
  unfold measured
  cases spelling with
  | format =>
    refine ⟨", log file size ".toList ++ (fileSize ++ (" MB \n".toList ++ "\n".toList)), ?_⟩
    unfold printedLine
    rw [hwords, haverage, hsize]
    generalize "throughput is".toList = a
    generalize "ms".toList = b
    simp only [List.append_assoc]
  | stream =>
    refine ⟨", ".toList ++ ("log file size ".toList ++ (fileSize ++ (" MB".toList ++ "\n".toList))), ?_⟩
    unfold printedLine
    rw [hwords, haverage', helapsed, hunit]
    generalize "throughput is".toList = a
    generalize "ms".toList = b
    simp only [List.append_assoc]

theorem measured_append (t : Text) (ms : ℕ) (rest after : Text) :
    measured t ms rest ++ after = measured t ms (rest ++ after) := by
  unfold measured
  generalize "throughput is".toList = a
  generalize "ms".toList = b
  simp only [List.append_assoc]

theorem measured_cons (t : Text) (ms : ℕ) (rest : Text) : ∃ u, measured t ms rest = 't' :: u := by
  have hwords : "throughput is".toList = 't' :: "hroughput is".toList := by decide
  unfold measured
  rw [hwords]
  exact ⟨_, rfl⟩

theorem Numeral.carriageReturn (t : Numeral) : '\r' ∉ t.text := by
  intro hm
  rcases List.mem_append.1 hm with hm | hm
  · exact absurd (t.whole_digits.2 _ hm) (by decide)
  · cases hf : t.fraction with
    | none =>
      rw [hf] at hm
      cases hm
    | some digits =>
      rw [hf] at hm
      rcases List.mem_cons.1 hm with heq | hm
      · cases heq
      · exact absurd ((t.fraction_digits digits hf).2 _ hm) (by decide)

theorem universalNewlines_measured (t : Numeral) (ms : ℕ) (rest : Text) :
    universalNewlines (measured t.text ms rest) = measured t.text ms (universalNewlines rest) := by
  have hstr : '\r' ∉ str ms := fun hm => absurd (str_isDigit hm) (by decide)
  have hblank : '\r' ∉ [' '] := by decide
  unfold measured
  rw [universalNewlines_append _ _ (by decide), universalNewlines_append _ _ hblank,
    universalNewlines_append _ _ t.carriageReturn, universalNewlines_append _ _ hblank,
    universalNewlines_append _ _ (by decide), universalNewlines_append _ _ hblank,
    universalNewlines_append _ _ (by decide), universalNewlines_append _ _ hblank,
    universalNewlines_append _ _ hstr, universalNewlines_append _ _ hblank, universalNewlines_append _ _ (by decide)]

def throughputWords : Text := "throughput is".toList

/-- The words do not begin again inside themselves. -/
theorem throughputWords_border : ∀ v ∈ throughputWords.tails, v <+: throughputWords → v = [] ∨ v = throughputWords := by
  decide

theorem quiet_before {w : Text} (hw : ¬ throughputWords <:+: w) (b rest : Text) :
    Quiet throughputPattern b w (throughputWords ++ rest) := by
  intro u v huv hv
  apply not_throughput
  rintro ⟨z, hz⟩
  change throughputWords ++ z = v ++ (throughputWords ++ rest) at hz
  rcases List.append_eq_append_iff.1 hz with ⟨y, hy, -⟩ | ⟨y, hy, hover⟩
  · exact hw ⟨u, y, by rw [huv, hy, List.append_assoc]⟩
  · have hborder : y <+: throughputWords ∨ throughputWords <+: y :=
      List.prefix_or_prefix_of_prefix ⟨z, hover.symm⟩ (List.prefix_append _ rest)
    have htail : y ∈ throughputWords.tails := (List.mem_tails _ _).2 ⟨v, hy.symm⟩
    have hlength := congrArg List.length hy
    have hpos := List.length_pos_iff.2 hv
    rw [List.length_append] at hlength
    rcases hborder with hprefix | hprefix
    · rcases throughputWords_border y htail hprefix with rfl | rfl
      · exact hw ⟨u, [], by rw [huv, hy, List.append_nil, List.append_nil]⟩
      · omega
    · have hle := hprefix.length_le
      omega

def firstLine (path : Text) : Text := (universalNewlines path).takeWhile notNewline

/-- The names of the benchmarks: `B` at the front, no blank, slash or line break. -/
theorem benchmark_name : ∀ e ∈ backendLoggerMap, e.1.head? = some 'B' ∧ e.1.all isNameChar = true := by
  unfold backendLoggerMap quillMacroFreeMode
  repeat rw [String.toList_ofList]
  decide +kernel

theorem mem_of_lookup {es : List (Text × LoggerInfo)} {key : Name} {info : LoggerInfo} (h : es.lookup key = some info) :
    (key, info) ∈ es := by
  induction es with
  | nil => cases h
  | cons e es ih =>
    obtain ⟨k, i⟩ := e
    rw [InsertionDict.lookup_cons_eq] at h
    by_cases hk : key = k
    · rw [if_pos hk] at h
      rw [hk, Option.some.inj h]
      exact List.mem_cons_self
    · rw [if_neg hk] at h
      exact List.mem_cons_of_mem _ (ih h)

section Reading

variable {dir : List Name} {key : Name} {info : LoggerInfo} (hkey : backendLoggerMap.lookup key = some info)
include hkey

theorem key_char {c : Char} (h : c ∈ key) : isSpace c = false ∧ c ≠ 'T' ∧ c ≠ '/' ∧ c ≠ '.' :=
  isSpace_of_isNameChar (List.all_eq_true.1 (benchmark_name _ (mem_of_lookup hkey)).2 c h)

theorem key_cons : ∃ t, key = 'B' :: t := by
  have hhead := (benchmark_name _ (mem_of_lookup hkey)).1
  cases hk : key with
  | nil =>
    rw [hk] at hhead
    cases hhead
  | cons c t =>
    rw [hk] at hhead
    exact ⟨t, by rw [Option.some.inj hhead]⟩

omit hkey in
theorem render_concat : render (dir ++ [key]) = render dir ++ '/' :: key := by
  rw [render_append]
  simp [render]

theorem universalNewlines_path :
    universalNewlines (render (dir ++ [key])) = universalNewlines (render dir) ++ '/' :: key := by
  have hcr : '\r' ∉ '/' :: key := by
    rw [List.mem_cons, not_or]
    exact ⟨by decide, fun hm => absurd (key_char hkey hm).1 (by decide)⟩
  rw [render_concat, universalNewlines_append_cons _ _ (by decide), universalNewlines_eq_self hcr]

theorem content_eq (output : Text) :
    universalNewlines (resultFile (render (dir ++ [key])) output) =
      benchWords ++ (universalNewlines (render (dir ++ [key])) ++ '\n' :: universalNewlines output) := by
  have hcr : '\r' ∉ '/' :: key ++ ['\n'] := by
    rw [List.cons_append, List.mem_cons, List.mem_append, not_or, not_or]
    exact ⟨by decide, fun hm => absurd (key_char hkey hm).1 (by decide), by decide⟩
  have hline := universalNewlines_append ('/' :: key ++ ['\n']) output hcr
  simp only [List.cons_append, List.append_assoc, List.nil_append] at hline
  rw [resultFile, List.append_assoc, universalNewlines_append _ _ (by decide : '\r' ∉ benchWords),
    universalNewlines_path hkey, render_concat]
  simp only [List.append_assoc, List.cons_append]
  rw [universalNewlines_append_cons _ _ (by decide), hline]

omit hkey in
theorem path_cons (dir : List Name) (key : Text) : ∃ t, universalNewlines (render (dir ++ [key])) = '/' :: t := by
  have hcons : ∃ t, render (dir ++ [key]) = '/' :: t := by
    cases dir with
    | nil => exact ⟨_, rfl⟩
    | cons n dir => exact ⟨_, rfl⟩
  obtain ⟨t, ht⟩ := hcons
  exact ⟨universalNewlines t, by rw [ht, universalNewlines_cons _ (by decide)]⟩

/-- The path that is read is the first line of the one that was written. -/
theorem readBenchFile_eq (output : Text) :
    readBenchFile (resultFile (render (dir ++ [key])) output) =
      (strip (firstLine (render (dir ++ [key]))),
        benchWords ++ (universalNewlines (render (dir ++ [key])) ++ '\n' :: universalNewlines output)) := by
  let path := universalNewlines (render (dir ++ [key]))
  have hrest : ∃ rest, benchWords ++ (path ++ '\n' :: universalNewlines output) =
      resultFile (path.takeWhile notNewline) rest := by
    have hsplit := List.takeWhile_append_dropWhile (p := notNewline) (l := path)
    cases hdrop : path.dropWhile notNewline with
    | nil =>
      rw [hdrop, List.append_nil] at hsplit
      exact ⟨universalNewlines output, by rw [hsplit, resultFile, List.append_assoc]⟩
    | cons c rest =>
      have hc : notNewline c = false := by
        have hhead := List.head?_dropWhile_not notNewline path
        rw [hdrop] at hhead
        simpa using hhead
      obtain rfl : c = '\n' := by simpa using hc
      rw [hdrop] at hsplit
      refine ⟨rest ++ '\n' :: universalNewlines output, ?_⟩
      conv_lhs => rw [← hsplit]
      simp only [resultFile, List.append_assoc, List.cons_append]
  obtain ⟨rest, hrest⟩ := hrest
  obtain ⟨t, ht⟩ := path_cons dir key
  have hne : path.takeWhile notNewline ≠ [] := by
    rw [show path = '/' :: t from ht, List.takeWhile_cons_of_pos (by decide)]
    exact List.cons_ne_nil _ _
  have hnl : '\n' ∉ path.takeWhile notNewline := fun hm =>
    absurd (List.all_eq_true.1 List.all_takeWhile _ hm) (by decide)
  obtain ⟨m, hm, htext⟩ := bench_search_path _ rest hne hnl
  rw [readBenchFile, content_eq hkey, hrest, hm, Option.elim_some, htext]
  rfl

/-- Behind a directory without a match the line is the first one. -/
theorem search_clean (hclean : throughputPattern.search (universalNewlines (render dir)) = none) {before : Text}
    (hbefore : ¬ throughputWords <:+: before) (t : Numeral) (ms : ℕ) (rest : Text) :
    ∃ m, throughputPattern.search (benchWords ++ (universalNewlines (render (dir ++ [key])) ++
        '\n' :: (before ++ measured t.text ms rest))) = some m ∧ m.text 0 = t.text ∧ m.text 1 = str ms := by
  obtain ⟨z, rfl⟩ := key_cons hkey
  have hblank : ' ' ∉ '/' :: 'B' :: z := by
    rw [List.mem_cons, not_or]
    exact ⟨by decide, fun hm => absurd (key_char hkey hm).1 (by decide)⟩
  have hquiet : Quiet throughputPattern [] (benchWords ++ (universalNewlines (render dir) ++ (('/' :: 'B' :: z) ++
      (['\n'] ++ before)))) (measured t.text ms rest) := by
    refine quiet_append_iff.2 ⟨throughput_quiet_of_no_t _ _ _ (by decide), quiet_append_iff.2
      ⟨quiet_extend (throughput_stopsAt (by decide) _) noLineStart_throughput (quiet_of_search_none hclean) _,
        quiet_append_iff.2 ⟨throughput_quiet_unspaced _ _ hblank,
          quiet_append_iff.2 ⟨throughput_quiet_of_no_t _ _ _ (by decide), quiet_before hbefore _ _⟩⟩⟩⟩
  obtain ⟨m, hm, htexts⟩ := matchAt_measured ((benchWords ++ (universalNewlines (render dir) ++ (('/' :: 'B' :: z) ++
      (['\n'] ++ before)))).reverse ++ []) t ms rest
  refine ⟨m, ?_, htexts⟩
  rw [← searchFrom_match hm, ← searchFrom_quiet hquiet, universalNewlines_path hkey]
  simp only [Pattern.search, List.append_assoc, List.cons_append, List.nil_append]

/-- A match in the directory is found whatever the program prints. -/
theorem search_found {m : Found Char} (hm : throughputPattern.search (universalNewlines (render dir)) = some m)
    (output : Text) : ∃ n, throughputPattern.search (benchWords ++ (universalNewlines (render (dir ++ [key])) ++
      '\n' :: output)) = some n ∧ n.text 1 = m.text 1 := by
  obtain ⟨z, rfl⟩ := key_cons hkey
  have hextend := searchFrom_extend (throughput_stopsAt (x := 'B') (by decide) (z ++ '\n' :: output)) hm
  have hunder := searchFrom_under noLineStart_throughput benchWords.reverse []
    (universalNewlines (render dir) ++ '/' :: 'B' :: (z ++ '\n' :: output))
  rw [hextend] at hunder
  have hquiet : Quiet throughputPattern [] benchWords (universalNewlines (render dir) ++ '/' :: 'B' :: (z ++
      '\n' :: output)) := throughput_quiet_of_no_t _ _ _ (by decide)
  refine ⟨underFound benchWords.reverse (extendFound ('/' :: 'B' :: (z ++ '\n' :: output)) m), ?_, ?_⟩
  · rw [universalNewlines_path hkey, Pattern.search]
    simp only [List.append_assoc, List.cons_append]
    rw [searchFrom_quiet hquiet, List.append_nil]
    exact hunder
  · exact text_under _ _ _

end Reading

/-- Whatever a program at the path prints around its line, the two numbers are read back
under the library's name, without an exception. -/
def RoundTrips {F : Type} (float : Text → F) (path : Text) (library : Text) (ms : ℕ) : Prop :=
  ∀ (spelling : Spelling) (t : Numeral) (fileSize before after : Text),
    ¬ throughputWords <:+: before → ¬ throughputWords <:+: after →
    let file := readBenchFile (resultFile path (before ++ (printedLine spelling t.text ms fileSize ++ after)))
    parseBackendBenchRaises file.1 file.2 = false ∧
      parseBackendBench float file.1 file.2 = some ⟨library, float t.text, ms⟩

/-- The first line of the path names the library, and no throughput is read in the directory. -/
structure ReadBack (dir : List Name) (key : Name) (library : Text) : Prop where
  named : (backendLoggerMap.lookup (parse (strip (firstLine (render (dir ++ [key]))))).name).map LoggerInfo.name =
    some library
  silent : throughputPattern.search (universalNewlines (render dir)) = none

/-- In a directory without line breaks only a throughput can disturb. -/
theorem readBack_of_plain {dir : List Name} {key : Name} {info : LoggerInfo}
    (hkey : backendLoggerMap.lookup key = some info) (hbreak : '\n' ∉ render dir ∧ '\r' ∉ render dir)
    (hsilent : throughputPattern.search (render dir) = none) : ReadBack dir key info.name := by
  have hread : universalNewlines (render dir) = render dir := universalNewlines_eq_self hbreak.2
  obtain ⟨z, hz⟩ := key_cons hkey
  have hplain : ∀ c ∈ key, c ≠ '\n' ∧ c ≠ '/' := fun c hc =>
    ⟨by rintro rfl; exact absurd (key_char hkey hc).1 (by decide), (key_char hkey hc).2.2.1⟩
  have hline : firstLine (render (dir ++ [key])) = render dir ++ '/' :: key := by
    have hall : ∀ c ∈ render dir ++ '/' :: key, notNewline c = true := by
      intro c hc
      rw [bne_iff_ne]
      rintro rfl
      rcases List.mem_append.1 hc with hm | hm
      · exact hbreak.1 hm
      · rcases List.mem_cons.1 hm with heq | hm
        · cases heq
        · exact (hplain _ hm).1 rfl
    have htake : (render dir ++ '/' :: key).takeWhile notNewline = render dir ++ '/' :: key :=
      List.takeWhile_eq_self_iff.2 hall
    rw [firstLine, universalNewlines_path hkey, hread, htake]
  have hstrip : strip (render dir ++ '/' :: key) = render dir ++ '/' :: key := by
    obtain ⟨t, ht⟩ := path_cons dir key
    rw [universalNewlines_path hkey, hread] at ht
    apply strip_eq_self
    · rw [ht]
      rintro c ⟨⟩
      decide
    · intro c hc
      rw [hz, List.getLast?_append_of_ne_nil _ (List.cons_ne_nil _ _), List.getLast?_cons_cons, ← hz] at hc
      exact (key_char hkey (List.mem_of_getLast? hc)).1
  refine ⟨?_, by rw [hread, hsilent]⟩
  rw [hline, hstrip, parse_name_append _ (fun hm => (hplain _ hm).2 rfl) (by rw [hz]; exact List.cons_ne_nil _ _)
    (by rw [hz]; exact fun h => nomatch List.head_eq_of_cons_eq h), hkey]
  rfl

def oneNumeral : Numeral := ⟨['1'], none, ⟨List.cons_ne_nil _ _, List.forall_mem_singleton.2 (by decide)⟩, by simp⟩

/-- A result that is returned has an elapsed time that `int` converts. -/
theorem elapsedMs_lt {F : Type} {float : Text → F} {benchPath content : Text} {r : BackendResult F}
    (hraises : parseBackendBenchRaises benchPath content = false)
    (hresult : parseBackendBench float benchPath content = some r) : (str r.elapsedMs).length ≤ intMaxStrDigits := by
  obtain ⟨i, hi, hmap⟩ := Option.bind_eq_some_iff.1 hresult
  obtain ⟨m, hm, rfl⟩ := Option.map_eq_some_iff.1 hmap
  rw [parseBackendBenchRaises, hi, hm] at hraises
  have hshort : (m.text 1).length ≤ intMaxStrDigits := by simpa using hraises
  rw [str_length_le_iff (by decide)]
  exact (int_lt _).trans_le (Nat.pow_le_pow_right (by decide) hshort)

section RoundTrip

variable {F : Type} {float : Text → F} {dir : List Name} {key : Name} {info : LoggerInfo}

/-- Below such a directory a round trip reads a number that does not come from it. -/
theorem readBack_of_roundTrips (hkey : backendLoggerMap.lookup key = some info)
    (h : ∀ ms, (str ms).length ≤ intMaxStrDigits → RoundTrips float (render (dir ++ [key])) info.name ms) :
    ReadBack dir key info.name := by
  have hparsed : ∀ ms : ℕ, (str ms).length ≤ intMaxStrDigits → ∃ output, ∃ i, backendLoggerMap.lookup
      (parse (strip (firstLine (render (dir ++ [key]))))).name = some i ∧ i.name = info.name ∧
        (throughputPattern.search (benchWords ++ (universalNewlines (render (dir ++ [key])) ++ '\n' :: output))).map
          (fun m => int (m.text 1)) = some ms := by
    intro ms hms
    obtain ⟨-, hone⟩ := h ms hms .format oneNumeral [] [] [] (by decide) (by decide)
    rw [readBenchFile_eq hkey, parseBackendBench] at hone
    obtain ⟨i, hi, hmap⟩ := Option.bind_eq_some_iff.1 hone
    obtain ⟨m, hm, heq⟩ := Option.map_eq_some_iff.1 hmap
    refine ⟨universalNewlines ([] ++ (printedLine .format oneNumeral.text ms [] ++ [])), i, hi,
      congrArg BackendResult.logger heq, ?_⟩
    rw [hm, Option.map_some]
    exact congrArg some (congrArg BackendResult.elapsedMs heq)
  refine ⟨?_, ?_⟩
  · obtain ⟨-, i, hi, hname, -⟩ := hparsed 0 (by decide)
    rw [hi, Option.map_some, hname]
  · rw [Option.eq_none_iff_forall_ne_some]
    intro m hm
    -- The directory gives one number, whatever the program has printed.
    have hread : ∀ ms : ℕ, (str ms).length ≤ intMaxStrDigits → int (m.text 1) = ms := by
      intro ms hms
      obtain ⟨output, -, -, -, hmap⟩ := hparsed ms hms
      obtain ⟨n, hn, htext⟩ := search_found hkey hm output
      rw [hn, Option.map_some, htext] at hmap
      exact Option.some.inj hmap
    have hzero := hread 0 (by decide)
    have hone := hread 1 (by decide)
    omega

theorem roundTrips_of_readBack (hkey : backendLoggerMap.lookup key = some info) (h : ReadBack dir key info.name)
    {ms : ℕ} (hms : (str ms).length ≤ intMaxStrDigits) : RoundTrips float (render (dir ++ [key])) info.name ms := by
  intro spelling t fileSize before after hbefore _
  dsimp only
  obtain ⟨rest, hrest⟩ := printedLine_eq spelling t.text ms fileSize
  obtain ⟨i, hi, hname⟩ := Option.map_eq_some_iff.1 h.named
  have houtput : universalNewlines (before ++ (printedLine spelling t.text ms fileSize ++ after)) =
      universalNewlines before ++ measured t.text ms (universalNewlines (rest ++ after)) := by
    obtain ⟨u, hu⟩ := measured_cons t.text ms (rest ++ after)
    rw [hrest, measured_append, hu, universalNewlines_append_cons _ _ (by decide), ← hu, universalNewlines_measured]
  have hquiet : ¬ throughputWords <:+: universalNewlines before :=
    fun hm => hbefore (infix_of_universalNewlines (by decide) hm)
  obtain ⟨m, hm, htext, helapsed⟩ := search_clean hkey h.silent hquiet t ms (universalNewlines (rest ++ after))
  rw [readBenchFile_eq hkey, houtput]
  constructor
  · rw [parseBackendBenchRaises, hm, Option.any_some, helapsed, decide_eq_false (Nat.not_lt.2 hms), Bool.and_false]
  · rw [parseBackendBench, hi, Option.bind_some, hm, Option.map_some, hname, htext, helapsed, int_str]

end RoundTrip

/-- The times that `int` converts come back below exactly the directories that do not end the
first line before the name and in which no throughput is found; longer ones never do. -/
theorem throughput_round_trip_iff {F : Type} (float : Text → F) (dir : List Name) {key : Name} {info : LoggerInfo}
    (hkey : backendLoggerMap.lookup key = some info) :
    ((∀ ms, (str ms).length ≤ intMaxStrDigits → RoundTrips float (render (dir ++ [key])) info.name ms) ↔
        ReadBack dir key info.name) ∧
      ∀ ms, intMaxStrDigits < (str ms).length → ¬ RoundTrips float (render (dir ++ [key])) info.name ms := by
  refine ⟨⟨readBack_of_roundTrips hkey, fun h _ hms => roundTrips_of_readBack hkey h hms⟩, fun ms hms h => ?_⟩
  obtain ⟨hraises, hresult⟩ := h .format oneNumeral [] [] [] (by decide) (by decide)
  exact absurd (elapsedMs_lt hraises hresult) (Nat.not_le.2 hms)

def quillName : Name := "BENCHMARK_quill_backend_total_time".toList

theorem throughput_round_trip_home :
    RoundTrips id (render (backendTotalDir ["home".toList] ++ [quillName])) "Quill".toList 1234 := by
  have hkey : backendLoggerMap.lookup quillName = some ⟨"Quill".toList, "https://github.com/odygrd/quill".toList⟩ := by
    decide +kernel
  exact (throughput_round_trip_iff id (backendTotalDir ["home".toList]) hkey).1.2
    (readBack_of_plain hkey (by decide +kernel) (by decide +kernel)) 1234 (by decide +kernel)

theorem line_break_hides :
    ¬ RoundTrips id (render (backendTotalDir ["home".toList, "a\nb".toList] ++ [quillName])) "Quill".toList 1 := by
  intro h
  obtain ⟨-, hread⟩ := h .format oneNumeral [] [] [] (by decide) (by decide)
  exact absurd hread (by decide +kernel)

end LoggerBenchmarks.ThroughputRoundTrip
