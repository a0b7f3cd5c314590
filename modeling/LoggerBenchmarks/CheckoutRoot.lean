import LoggerBenchmarks.BackendTable
import LoggerBenchmarks.LatencyPatterns
import LoggerBenchmarks.LatencyTableRows
import LoggerBenchmarks.RegexLocality

set_option autoImplicit false

/-!
# The directory a repository is checked out in

A result file begins with the absolute path of its benchmark, and the parser looks
for words and patterns in all of it.
-/
namespace LoggerBenchmarks.CheckoutRoot
open BacktrackingRegex RegexLocality PythonText PosixPaths BenchmarkRunner ResultFileParser
open LatencyPatterns LatencyTable LatencyTableRows InsertionDict

structure Root where
  parts : List Name
  named : ∀ n ∈ parts, n ≠ [] ∧ '/' ∉ n ∧ '\n' ∉ n

def Root.text (root : Root) : Text := render root.parts

/-- The root of the file system, with no directory above the repository. -/
def top : Root := ⟨[], by simp⟩

def contents (root : Root) (outputs : List Text) : List Text :=
  sortedFiles (writtenFiles root.parts outputs)

section Floats

variable {F : Type} (float : Text → F) (meanFloat : List F → F)

/-- Whatever the benchmarks print, both collections come out the same. -/
def SameResults (root root' : Root) : Prop :=
  ∀ outputs, collectLatencyResults trueDivide (contents root outputs) =
      collectLatencyResults trueDivide (contents root' outputs) ∧
    BackendTable.collectBackendResults float meanFloat trueDivide (contents root outputs) =
      BackendTable.collectBackendResults float meanFloat trueDivide (contents root' outputs)

end Floats

def largestrWord : Text := "largestr".toList
def withFunctionsWord : Text := "with_functions".toList
def unboundedWord : Text := "quill_unbounded".toList
def boundedWord : Text := "quill_bounded".toList
def callSiteWord : Text := "call_site_latency".toList

def classWords : List Text :=
  [largestrWord, withFunctionsWord, unboundedWord, boundedWord, callSiteWord]

/-- Nothing in the path of the root is mistaken for a part of the benchmark's path or output. -/
structure Clean (root : Root) : Prop where
  carriageReturn : '\r' ∉ root.text
  words : ∀ w ∈ classWords, contains w root.text = false
  threadCount : NoThreadCount root.text
  throughput : throughputPattern.search root.text = none

def isNameChar (c : Char) : Bool :=
  c.toNat == 0x2d || c.toNat == 0x5f || (0x30 ≤ c.toNat && c.toNat ≤ 0x39) ||
    (0x61 ≤ c.toNat && c.toNat ≤ 0x7a) || (0x41 ≤ c.toNat && c.toNat ≤ 0x53)

theorem isSpace_of_isNameChar {c : Char} (h : isNameChar c = true) :
    isSpace c = false ∧ c ≠ 'T' ∧ c ≠ '/' ∧ c ≠ '.' := by
  have hrange : c.toNat = 0x2d ∨ c.toNat = 0x5f ∨ (0x30 ≤ c.toNat ∧ c.toNat ≤ 0x39) ∨
      (0x61 ≤ c.toNat ∧ c.toNat ≤ 0x7a) ∨ (0x41 ≤ c.toNat ∧ c.toNat ≤ 0x53) := by
    simpa [isNameChar, or_assoc] using h
  have hne : ∀ d : Char, c.toNat ≠ d.toNat → c ≠ d := fun d hd hcd => hd (congrArg Char.toNat hcd)
  refine ⟨?_, hne 'T' ?_, hne '/' ?_, hne '.' ?_⟩
  · rw [Bool.eq_false_iff]
    simp only [isSpace, spaceRuns, ne_eq, List.any_eq_true, not_exists, not_and, Bool.and_eq_true,
      decide_eq_true_eq, List.mem_cons, List.not_mem_nil, or_false]
    rintro r (rfl | rfl | rfl | rfl | rfl | rfl | rfl | rfl | rfl | rfl) <;> omega
  · change c.toNat ≠ 0x54
    omega
  · change c.toNat ≠ 0x2f
    omega
  · change c.toNat ≠ 0x2e
    omega

structure Tail (path : List Name) : Prop where
  ne_nil : path ≠ []
  names : ∀ n ∈ path, n ≠ [] ∧ ∀ c ∈ n, isNameChar c = true
  start : (render path).take 2 = ['/', 'c']

theorem benchmark_tail : ∀ path ∈ benchmarkPaths [], Tail path := by
  have h : ∀ path ∈ benchmarkPaths [], path ≠ [] ∧ (render path).take 2 = ['/', 'c'] ∧
      ∀ n ∈ path, n ≠ [] ∧ n.all isNameChar = true := by
    unfold benchmarkPaths callSiteDir backendTotalDir callSiteBenchmarks backendTotalBenchmarks
    repeat rw [String.toList_ofList]
    decide +kernel
  intro path hp
  obtain ⟨hne, hstart, hnames⟩ := h path hp
  exact ⟨hne, fun n hn => ⟨(hnames n hn).1, List.all_eq_true.1 (hnames n hn).2⟩, hstart⟩

theorem render_append (p q : List Name) : render (p ++ q) = render p ++ render q :=
  List.flatMap_append

theorem benchmarkPaths_eq (root : List Name) :
    benchmarkPaths root = (benchmarkPaths []).map (root ++ ·) := by
  simp [benchmarkPaths, callSiteDir, backendTotalDir, Function.comp_def]

def fileOf (root : Root) (item : List Name × Text) : Text :=
  resultFile (root.text ++ render item.1) item.2

/-- The benchmarks that were run, each with its output, in the order of the file names. -/
def itemsInOrder (outputs : List Text) : List (List Name × Text) :=
  ((((benchmarkPaths []).zip outputs).zipIdx.map fun x => (resultFileName x.2, x.1)).mergeSort
    fun a b => textLe a.1 b.1).map Prod.snd

theorem contents_eq (root : Root) (outputs : List Text) :
    contents root outputs = (itemsInOrder outputs).map (fileOf root) := by
  have hfiles : writtenFiles root.parts outputs =
      (((benchmarkPaths []).zip outputs).zipIdx.map fun x => (resultFileName x.2, x.1)).map
        fun x => (x.1, fileOf root x.2) := by
    rw [writtenFiles, benchmarkPaths_eq, List.zip_map_left, List.zipIdx_map, List.map_map, List.map_map]
    apply List.map_congr_left
    rintro ⟨⟨path, output⟩, i⟩ -
    simp [fileOf, render_append, Root.text]
  have hsort := List.map_mergeSort (f := fun x : Name × (List Name × Text) => (x.1, fileOf root x.2))
    (r := fun a b => textLe a.1 b.1) (s := fun a b => textLe a.1 b.1)
    (l := ((benchmarkPaths []).zip outputs).zipIdx.map fun x => (resultFileName x.2, x.1))
    (fun a _ b _ => rfl)
  rw [contents, sortedFiles, hfiles]
  refine (congrArg (List.map Prod.snd) hsort.symm).trans ?_
  rw [itemsInOrder, List.map_map, List.map_map]
  rfl

theorem itemsInOrder_perm (outputs : List Text) :
    (itemsInOrder outputs).Perm ((benchmarkPaths []).zip outputs) := by
  have h := (List.mergeSort_perm
    (((benchmarkPaths []).zip outputs).zipIdx.map fun x => (resultFileName x.2, x.1))
    fun a b => textLe a.1 b.1).map Prod.snd
  rw [List.map_map] at h
  have hfst : Prod.snd ∘ (fun x : (List Name × Text) × ℕ => (resultFileName x.2, x.1)) = Prod.fst := rfl
  rwa [hfst, List.zipIdx_map_fst] at h

theorem item_path {outputs : List Text} {item : List Name × Text} (h : item ∈ itemsInOrder outputs) :
    item.1 ∈ benchmarkPaths [] := by
  have hzip := (itemsInOrder_perm outputs).mem_iff.1 h
  exact (List.of_mem_zip hzip).1

theorem mem_render {parts : List Name} {c : Char} (h : c ∈ render parts) : c = '/' ∨ ∃ n ∈ parts, c ∈ n := by
  obtain ⟨n, hn, hc⟩ := List.mem_flatMap.1 h
  rcases List.mem_cons.1 hc with rfl | hc
  · exact .inl rfl
  · exact .inr ⟨n, hn, hc⟩

theorem Root.newline (root : Root) : '\n' ∉ root.text := by
  intro h
  rcases mem_render h with h | ⟨n, hn, hc⟩
  · exact absurd h (by decide)
  · exact (root.named n hn).2.2 hc

namespace Tail

variable {path : List Name} (h : Tail path)
include h

theorem char {c : Char} (hc : c ∈ render path) : c = '/' ∨ isNameChar c = true := by
  rcases mem_render hc with rfl | ⟨n, hn, hc⟩
  · exact .inl rfl
  · exact .inr ((h.names n hn).2 c hc)

theorem space {c : Char} (hc : c ∈ render path) : isSpace c = false ∧ c ≠ 'T' := by
  rcases h.char hc with rfl | hname
  · decide
  · exact ⟨(isSpace_of_isNameChar hname).1, (isSpace_of_isNameChar hname).2.1⟩

theorem not_mem {c : Char} (hc : isSpace c = true ∨ c = 'T') : c ∉ render path := by
  intro hmem
  obtain ⟨hsp, hT⟩ := h.space hmem
  rcases hc with hc | hc
  · rw [hc] at hsp
    cases hsp
  · exact hT hc

theorem cons₂ : ∃ t, render path = '/' :: 'c' :: t := by
  have hsplit := List.take_append_drop 2 (render path)
  rw [h.start] at hsplit
  exact ⟨_, hsplit.symm⟩

theorem cons : ∃ t, render path = '/' :: t :=
  let ⟨t, ht⟩ := h.cons₂
  ⟨'c' :: t, ht⟩

theorem last : render path = render path.dropLast ++ '/' :: path.getLast h.ne_nil := by
  conv_lhs => rw [← List.dropLast_append_getLast h.ne_nil]
  rw [render_append]
  simp [render]

/-- The name of a benchmark is read off its path whatever stands in front. -/
theorem name (s : Text) : (parse (s ++ render path)).name = path.getLast h.ne_nil := by
  obtain ⟨hne, hchars⟩ := h.names _ (List.getLast_mem h.ne_nil)
  rw [h.last, ← List.append_assoc]
  apply parse_name_append
  · intro hslash
    exact (isSpace_of_isNameChar (hchars _ hslash)).2.2.1 rfl
  · exact hne
  · intro hdot
    have hmem : '.' ∈ path.getLast h.ne_nil := hdot ▸ List.mem_singleton_self '.'
    exact (isSpace_of_isNameChar (hchars _ hmem)).2.2.2 rfl

end Tail

theorem text_head (root : Root) : ∀ c ∈ root.text.head?, c = '/' := by
  intro c hc
  cases hp : root.parts with
  | nil =>
    rw [Root.text, hp] at hc
    cases hc
  | cons n ns =>
    rw [Root.text, hp] at hc
    cases hc
    rfl

theorem strip_path (root : Root) {path : List Name} (h : Tail path) :
    strip (root.text ++ render path) = root.text ++ render path := by
  obtain ⟨t, ht⟩ := h.cons
  apply strip_eq_self
  · intro c hc
    have hslash : c = '/' := by
      cases hr : root.text with
      | nil =>
        rw [hr, List.nil_append, ht] at hc
        cases hc
        rfl
      | cons d u =>
        rw [hr] at hc
        exact text_head root c (by rw [hr]; exact hc)
    rw [hslash]
    decide
  · intro c hc
    rw [List.getLast?_append_of_ne_nil _ (by simp [ht])] at hc
    exact (h.space (List.mem_of_getLast? hc)).1

theorem read_fileOf {root : Root} (hcr : '\r' ∉ root.text) {path : List Name} (h : Tail path)
    (output : Text) : readBenchFile (fileOf root (path, output)) =
      (root.text ++ render path, benchWords ++ (root.text ++ render path) ++
        '\n' :: universalNewlines output) := by
  obtain ⟨t, ht⟩ := h.cons
  have hpath : '\r' ∉ render path := h.not_mem (.inl (by decide))
  have hnl : '\n' ∉ render path := h.not_mem (.inl (by decide))
  have hline : '\r' ∉ benchWords ++ (root.text ++ render path) ++ ['\n'] := by
    have hw : '\r' ∉ benchWords := by decide
    simp [hw, hcr, hpath]
  have hcontent : universalNewlines (fileOf root (path, output)) =
      resultFile (root.text ++ render path) (universalNewlines output) := by
    have := universalNewlines_append _ output hline
    simpa [fileOf, resultFile] using this
  obtain ⟨m, hm, htext⟩ := bench_search_path (root.text ++ render path) (universalNewlines output)
    (by simp [ht]) (by simp [root.newline, hnl])
  rw [readBenchFile, hcontent, hm, Option.elim_some, htext, strip_path root h]
  rfl

theorem contains_append_slash {w r t : Text} (hw : '/' ∉ w) :
    contains w (r ++ '/' :: t) = (contains w r || contains w ('/' :: t)) := by
  rw [Bool.eq_iff_iff, Bool.or_eq_true, contains_iff, contains_iff, contains_iff]
  constructor
  · rintro ⟨p, q, h⟩
    rcases List.append_eq_append_iff.1 h with ⟨z, hz, -⟩ | ⟨z, hz, hrest⟩
    · exact .inl ⟨p, z, hz.symm⟩
    · rcases List.append_eq_append_iff.1 hz with ⟨y, hy, hwy⟩ | ⟨y, hy, hyz⟩
      · -- the word would begin in the root and reach over the slash
        cases z with
        | nil =>
          rw [List.append_nil] at hwy
          exact .inl ⟨p, [], by rw [List.append_nil, hy, hwy]⟩
        | cons c z =>
          obtain rfl : '/' = c := (List.cons.inj hrest).1
          exact absurd (by simp [hwy]) hw
      · exact .inr ⟨y, q, by rw [hrest, hyz]⟩
  · rintro (⟨p, q, rfl⟩ | ⟨p, q, h⟩)
    · exact ⟨p, q ++ '/' :: t, by simp⟩
    · exact ⟨r ++ p, q, by rw [← h]; simp⟩

theorem contains_of_part {u w t : Text} (hu : u <:+: w) (h : contains u t = false) :
    contains w t = false := by
  rw [Bool.eq_false_iff] at h ⊢
  intro hw
  exact h ((contains_iff u t).2 (hu.trans ((contains_iff w t).1 hw)))

theorem contains_path {w : Text} {root : Root} {path : List Name} (hpath : Tail path) (hw : '/' ∉ w)
    (h : contains w root.text = false) :
    contains w (root.text ++ render path) = contains w (render path) := by
  obtain ⟨t, ht⟩ := hpath.cons
  rw [ht, contains_append_slash hw, h, Bool.false_or]

section CleanRoot

variable {root : Root} {path : List Name}

theorem benchmarkTypeOf_path (hc : Clean root) (hpath : Tail path) :
    benchmarkTypeOf (root.text ++ render path) = benchmarkTypeOf (render path) := by
  have h := hc.words largestrWord (by decide)
  unfold benchmarkTypeOf
  rw [contains_path hpath (by decide) (contains_of_part (by decide) h),
    contains_path hpath (by decide) (contains_of_part (by decide) h),
    contains_path hpath (by decide) (contains_of_part (by decide) h),
    contains_path (w := "largestr".toList) hpath (by decide) h]

theorem loggerKey_path (hc : Clean root) (hpath : Tail path) (logger : Text) :
    loggerKey (root.text ++ render path) logger = loggerKey (render path) logger := by
  have hfunctions := hc.words withFunctionsWord (by decide)
  unfold loggerKey
  rw [contains_path (w := "with_functions".toList) hpath (by decide) hfunctions,
    contains_path hpath (by decide) (contains_of_part (by decide) hfunctions),
    contains_path (w := "quill_unbounded".toList) hpath (by decide) (hc.words unboundedWord (by decide)),
    contains_path (w := "quill_bounded".toList) hpath (by decide) (hc.words boundedWord (by decide))]

end CleanRoot

theorem noLineStart_header : NoLineStart headerPattern :=
  ⟨noLineStart_literal _, ⟨trivial, trivial⟩, noLineStart_literal _, ⟨trivial, trivial⟩,
    noLineStart_literal _, ⟨trivial, trivial⟩, noLineStart_literal _, trivial, trivial⟩

theorem noLineStart_threadCount : NoLineStart threadCountPattern :=
  ⟨noLineStart_literal _, trivial, trivial⟩

theorem noLineStart_throughput : NoLineStart throughputPattern :=
  ⟨noLineStart_literal _, ⟨trivial, trivial⟩, ⟨⟨trivial, trivial⟩, trivial, trivial, trivial⟩,
    ⟨trivial, trivial⟩, noLineStart_literal _, ⟨trivial, trivial⟩, noLineStart_literal _,
    ⟨trivial, trivial⟩, ⟨trivial, trivial⟩, ⟨trivial, trivial⟩, noLineStart_literal _⟩

theorem latencyResult_under (benchPath b : Text) (header row : Found Char) :
    latencyResult benchPath (underFound b header) row = latencyResult benchPath header row := by
  unfold latencyResult
  rw [text_under, text_under]

/-- Text without a thread count in front of an output adds and moves nothing. -/
theorem parseLatencyBench_quiet (benchPath : Text) {v z : Text} (hq : Quiet threadCountPattern [] v z) :
    parseLatencyBench benchPath (v ++ z) = parseLatencyBench benchPath z := by
  obtain ⟨q, qs, hz⟩ := List.exists_cons_of_ne_nil (pieces_ne_nil ⟨[], z⟩ (threadCountPattern.findAll z))
  have hsplit : threadCountPattern.split (v ++ z) = (v ++ q) :: qs := by
    rw [split_quiet noLineStart_threadCount hq, Pattern.split, hz]
    rfl
  rw [parseLatencyBench_eq_zip _ _ _ _ hsplit, parseLatencyBench_eq_zip _ _ _ _ hz,
    findAll_quiet noLineStart_header (quiet_header hq), List.zip_map_left, List.filterMap_map]
  apply List.filterMap_congr
  rintro ⟨header, sec⟩ -
  simp only [Function.comp_apply, Prod.map_apply, id_eq, latencyResult_under]

theorem latencyResult_path {p p' : Text} (htype : benchmarkTypeOf p = benchmarkTypeOf p')
    (hkey : ∀ logger, loggerKey p logger = loggerKey p' logger) (header row : Found Char) :
    latencyResult p header row = latencyResult p' header row := by
  unfold latencyResult
  rw [htype, hkey]

theorem parseLatencyBench_path {p p' : Text} (htype : benchmarkTypeOf p = benchmarkTypeOf p')
    (hkey : ∀ logger, loggerKey p logger = loggerKey p' logger) (content : Text) :
    parseLatencyBench p content = parseLatencyBench p' content := by
  unfold parseLatencyBench
  simp only [latencyResult_path htype hkey]

theorem not_throughput {c : Cursor Char} (h : ¬ "throughput is".toList <+: c.after) :
    throughputPattern.matchAt c = none := by
  obtain ⟨b, xs⟩ := c
  rw [matchAt_eq_none, throughputPattern, run_seq_of_nil (run_literal_of_mismatch b h)]

theorem throughput_quiet_of_no_t (b w xs : Text) (h : 't' ∉ w) : Quiet throughputPattern b w xs := by
  intro u v huv hv
  apply not_throughput
  rintro ⟨z, hz⟩
  cases v with
  | nil => exact hv rfl
  | cons x v =>
    have hx : 't' = x := congrArg (fun t => t.headD 't') hz
    exact h (by rw [huv, ← hx]; simp)

theorem throughput_quiet_unspaced (b xs : Text) {w : Text} (hblank : ' ' ∉ w) :
    Quiet throughputPattern b w ('\n' :: xs) := by
  intro u v huv hv
  apply not_throughput
  rintro ⟨z, hz⟩
  have hsplit : "throughput is".toList = "throughput".toList ++ ' ' :: "is".toList := rfl
  rw [hsplit, List.append_assoc] at hz
  change "throughput".toList ++ (' ' :: ("is".toList ++ z)) = v ++ '\n' :: xs at hz
  have hrest : ' ' ∉ v := fun hm => hblank (huv ▸ List.mem_append_right u hm)
  rcases List.append_eq_append_iff.1 hz with ⟨y, hy, hover⟩ | ⟨y, hy, hover⟩
  · cases y with
    | nil => cases hover
    | cons c y =>
      obtain rfl : ' ' = c := (List.cons.inj hover).1
      exact hrest (by simp [hy])
  · cases y with
    | nil => cases hover
    | cons c y =>
      obtain rfl : '\n' = c := (List.cons.inj hover).1
      have hmem : '\n' ∈ "throughput".toList := by simp [hy]
      exact absurd hmem (by decide)

theorem throughput_quiet_path {path : List Name} (hpath : Tail path) (b xs : Text) :
    Quiet throughputPattern b (render path) ('\n' :: xs) :=
  throughput_quiet_unspaced b xs (hpath.not_mem (.inl (by decide)))

/-- The words `msgs/sec` do not continue into a name that does not begin with `s`. -/
theorem throughput_stopsAt {x : Char} (hx : x ≠ 's') (t : Text) : StopsAt throughputPattern ('/' :: x :: t) := by
  have hspace : isSpace '/' = false := by decide
  have hdigit : isAsciiDigit '/' = false := by decide
  have hdecimal : isDecimal '/' = false := by decide
  have hspaces := stopsAt_of_avoids (avoids_plus hspace) (x :: t)
  have hnumber : StopsAt (Pattern.group (Pattern.seq (Pattern.plus isAsciiDigit)
      (Pattern.opt (Pattern.seq (Pattern.one (· == '.')) (Pattern.plus isAsciiDigit))))) ('/' :: x :: t) := by
    apply stopsAt_of_avoids
    exact ⟨⟨hdigit, hdigit⟩, (by decide : ('/' == '.') = false), hdigit, hdigit⟩
  have hmiddle : StopsAt (Pattern.literal "million msgs/sec average,".toList) ('/' :: x :: t) := by
    apply stopsAt_literal
    intro u v huv hv hpre
    have hends : ∀ w ∈ "million msgs/sec average,".toList.tails, w ≠ [] →
        w.head? ≠ some '/' ∨ w[1]? = some 's' := by decide
    have hend := hends v ((List.mem_tails v _).2 ⟨u, huv.symm⟩) hv
    obtain ⟨z, hz⟩ := hpre
    rcases hend with hhead | hsecond
    · cases v with
      | nil => exact hv rfl
      | cons y v =>
        obtain rfl : y = '/' := (List.cons.inj hz).1
        exact hhead rfl
    · have hc : (v ++ z)[1]? = some x := by rw [hz]; rfl
      rw [List.getElem?_append_left (by
        by_contra hlen
        rw [List.getElem?_eq_none (by omega)] at hsecond
        cases hsecond), hsecond] at hc
      exact hx (Option.some.inj hc).symm
  exact stopsAt_seq (stopsAt_of_avoids (avoids_literal (by decide)) _) (stopsAt_seq hspaces
    (stopsAt_seq hnumber (stopsAt_seq hspaces (stopsAt_seq hmiddle (stopsAt_seq hspaces
      (stopsAt_seq (stopsAt_of_avoids (avoids_literal (by decide)) _) (stopsAt_seq hspaces
        (stopsAt_seq (stopsAt_group (stopsAt_of_avoids (avoids_plus hdecimal) _)) (stopsAt_seq hspaces
          (stopsAt_of_avoids (avoids_literal (by decide)) _))))))))))

section CleanFiles

variable {root : Root} {path : List Name}

def benchLine (root : Root) (path : List Name) : Text :=
  benchWords ++ (root.text ++ (render path ++ ['\n']))

theorem read_line (hcr : '\r' ∉ root.text) (hpath : Tail path) (output : Text) :
    readBenchFile (fileOf root (path, output)) =
      (root.text ++ render path, benchLine root path ++ universalNewlines output) := by
  rw [read_fileOf hcr hpath]
  simp [benchLine]

theorem threadCount_quiet_line (hc : NoThreadCount root.text) (hpath : Tail path) (xs : Text) :
    Quiet threadCountPattern [] (benchLine root path) xs := by
  obtain ⟨t, ht⟩ := hpath.cons
  refine quiet_append_iff.2 ⟨quiet_of_no_T _ _ _ (by decide), quiet_append_iff.2 ⟨?_, ?_⟩⟩
  · apply quiet_of_noThreadCount _ _ _ hc
    rw [ht]
    exact noRest_slash _
  · apply quiet_of_no_T
    have hT : 'T' ∉ render path := hpath.not_mem (.inr rfl)
    simp [hT]

theorem throughput_quiet_line (hc : Clean root) (hpath : Tail path) (xs : Text) :
    Quiet throughputPattern [] (benchLine root path) xs := by
  obtain ⟨t, ht⟩ := hpath.cons₂
  refine quiet_append_iff.2 ⟨throughput_quiet_of_no_t _ _ _ (by decide), quiet_append_iff.2
    ⟨?_, quiet_append_iff.2 ⟨throughput_quiet_path hpath _ _, throughput_quiet_of_no_t _ _ _ (by decide)⟩⟩⟩
  have hquiet := quiet_of_search_none hc.throughput
  rw [ht]
  exact quiet_extend (throughput_stopsAt (by decide) _) noLineStart_throughput hquiet _

theorem fileBlocks_quiet (hcr : '\r' ∉ root.text) (hthread : NoThreadCount root.text) (hpath : Tail path)
    (output : Text) : fileBlocks (fileOf root (path, output)) =
      if contains callSiteWord (root.text ++ render path) then
        parseLatencyBench (root.text ++ render path) (universalNewlines output)
      else [] := by
  rw [fileBlocks, read_line hcr hpath, parseLatencyBench_quiet _ (threadCount_quiet_line hthread hpath _)]
  rfl

/-- The latency results of a file follow from the benchmark's own path and output. -/
theorem fileBlocks_clean (hc : Clean root) (hpath : Tail path) (output : Text) :
    fileBlocks (fileOf root (path, output)) =
      if contains callSiteWord (render path) then
        parseLatencyBench (render path) (universalNewlines output)
      else [] := by
  have hword : contains callSiteWord (root.text ++ render path) = contains callSiteWord (render path) :=
    contains_path hpath (by decide) (hc.words callSiteWord (by decide))
  rw [fileBlocks_quiet hc.carriageReturn hc.threadCount hpath, hword,
    parseLatencyBench_path (benchmarkTypeOf_path hc hpath) (loggerKey_path hc hpath)]

variable {F : Type} (float : Text → F)

def backendBlock (file : Text) : Option (BackendResult F) :=
  if contains "backend_total_time".toList (readBenchFile file).1 then
    parseBackendBench float (readBenchFile file).1 (readBenchFile file).2
  else none

/-- Only the backend benchmarks have an entry in the map. -/
theorem backend_name : ∀ p ∈ benchmarkPaths [],
    contains "backend_total_time".toList (render p) = true ∨
      backendLoggerMap.lookup (p.getLast?.getD []) = none := by
  unfold benchmarkPaths callSiteDir backendTotalDir callSiteBenchmarks backendTotalBenchmarks
    backendLoggerMap quillMacroFreeMode
  repeat rw [String.toList_ofList]
  decide +kernel

theorem backendBlock_clean (hc : Clean root) (hmem : path ∈ benchmarkPaths []) (output : Text) :
    backendBlock float (fileOf root (path, output)) =
      if contains "backend_total_time".toList (render path) then
        parseBackendBench float (render path) (universalNewlines output)
      else none := by
  have hpath := benchmark_tail path hmem
  obtain ⟨t, ht⟩ := hpath.cons
  have hname : (parse (root.text ++ render path)).name = (parse (render path)).name := by
    rw [hpath.name root.text]
    exact (hpath.name []).symm
  have hparse : parseBackendBench float (root.text ++ render path)
      (benchLine root path ++ universalNewlines output) =
        parseBackendBench float (render path) (universalNewlines output) := by
    rw [parseBackendBench, parseBackendBench, hname,
      search_quiet noLineStart_throughput (throughput_quiet_line hc hpath _)]
    simp only [Option.map_map, Function.comp_def, text_under]
  rw [backendBlock, read_line hc.carriageReturn hpath, hparse]
  rcases backend_name path hmem with hword | hnone
  · have hroot : contains "backend_total_time".toList (root.text ++ render path) = true := by
      rw [ht, contains_append_slash (by decide), ← ht, hword, Bool.or_true]
    rw [if_pos hroot, if_pos hword]
  · have hnothing : parseBackendBench float (render path) (universalNewlines output) = none := by
      have hlast : (parse (render path)).name = path.getLast?.getD [] := by
        rw [List.getLast?_eq_getLast_of_ne_nil hpath.ne_nil]
        exact hpath.name []
      rw [parseBackendBench, hlast, hnone]
      rfl
    rw [hnothing, ite_self, ite_self]

end CleanFiles

section Collections

variable {F : Type} (float : Text → F) (meanFloat : List F → F)

theorem collectLatency_congr {files files' : List Text}
    (h : files.map fileBlocks = files'.map fileBlocks) :
    collectLatencyResults trueDivide files = collectLatencyResults trueDivide files' := by
  have hblocks : latencyBlocks files = latencyBlocks files' := by
    rw [latencyBlocks, latencyBlocks, List.flatMap_def, List.flatMap_def, h]
  rw [collectLatencyResults, collectLatencyResults, samples_eq, samples_eq, hblocks]

theorem backendSamples_eq (files : List Text) : files.foldl (BackendTable.addFile float) .empty =
    group BackendResult.logger (files.filterMap (backendBlock float)) := by
  rw [group, List.foldl_filterMap]
  congr 1
  funext samples file
  unfold BackendTable.addFile backendBlock
  rcases readBenchFile file with ⟨benchPath, content⟩
  dsimp only
  generalize contains "backend_total_time".toList benchPath = backend
  cases backend
  · rfl
  · cases parseBackendBench float benchPath content <;> simp [BackendTable.addResult]

theorem collectBackend_congr {files files' : List Text}
    (h : files.filterMap (backendBlock float) = files'.filterMap (backendBlock float)) :
    BackendTable.collectBackendResults float meanFloat trueDivide files =
      BackendTable.collectBackendResults float meanFloat trueDivide files' := by
  unfold BackendTable.collectBackendResults
  rw [backendSamples_eq, backendSamples_eq, h]

theorem same_of_clean {root root' : Root} (hc : Clean root) (hc' : Clean root') :
    SameResults float meanFloat root root' := by
  intro outputs
  rw [contents_eq, contents_eq]
  constructor
  · apply collectLatency_congr
    rw [List.map_map, List.map_map]
    apply List.map_congr_left
    rintro ⟨path, output⟩ hitem
    have hpath := benchmark_tail path (item_path hitem)
    simp only [Function.comp_apply, fileBlocks_clean hc hpath, fileBlocks_clean hc' hpath]
  · apply collectBackend_congr
    rw [List.filterMap_map, List.filterMap_map]
    apply List.filterMap_congr
    rintro ⟨path, output⟩ hitem
    simp only [Function.comp_apply, backendBlock_clean float hc (item_path hitem),
      backendBlock_clean float hc' (item_path hitem)]

end Collections

theorem top_clean : Clean top where
  carriageReturn := List.not_mem_nil
  words := by
    have h : ∀ w ∈ classWords, w ≠ [] := by decide
    intro w hw
    rw [Bool.eq_false_iff]
    intro hin
    exact h w hw (List.infix_nil.1 ((contains_iff w []).1 hin))
  threadCount := by
    rintro u v huv ⟨d, w, -, hv⟩
    obtain ⟨-, rfl⟩ := List.append_eq_nil_iff.1 huv.symm
    cases hv
  throughput := by
    change throughputPattern.matchAt ⟨[], []⟩ = none
    apply not_throughput
    decide

end LoggerBenchmarks.CheckoutRoot
