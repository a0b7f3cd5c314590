import LoggerBenchmarks.EolRestoring
import LoggerBenchmarks.SurrogateEscape

set_option autoImplicit false

/-!
# The listing of the index

`tracked_eol_info` on the bytes that `git ls-files --eol -z` prints: one record for each
path, its classes and attributes in padded columns before a TAB and the path after it.
-/
namespace LoggerBenchmarks.IndexListing
open PythonText InsertionDict LineEndings TextStreams SurrogateEscape

def nul : UInt8 := 0

def tab : UInt8 := 9

def space : UInt8 := 32

/-- The two parts of `entry.split(b"\t", 1)`; `none` where there is only one. -/
def splitTab (entry : Bytes) : Option (Bytes × Bytes) :=
  match entry.dropWhile (· != tab) with
  | [] => none
  | _ :: path => some (entry.takeWhile (· != tab), path)

/-- `metadata.split()[0]`, `none` where Python raises `IndexError`. -/
def firstToken (metadata : List CodePoint) : Option (List CodePoint) :=
  match metadata.dropWhile CodePoint.isSpace with
  | [] => none
  | c :: t => some ((c :: t).takeWhile fun x => !x.isSpace)

/-- `index_token.split("/", 1)[1]` -/
def afterSlash (token : List CodePoint) : List CodePoint := (token.dropWhile (· != .scalar '/')).tail

def addEntry (info : Dict (List CodePoint) (List CodePoint)) (entry : Bytes) :
    Option (Dict (List CodePoint) (List CodePoint)) :=
  if entry = [] then some info
  else do
    let (metadataBytes, repoPathBytes) ← splitTab entry
    let metadata := decode metadataBytes
    let repoPath := decode repoPathBytes
    let indexToken ← firstToken metadata
    if (ofText "i/".toList).isPrefixOf indexToken then
      some (info.modify repoPath (afterSlash indexToken) fun _ => afterSlash indexToken)
    else some info

/-- `none` where the parser raises. -/
def trackedEolInfo (stdout : Bytes) : Option (Dict (List CodePoint) (List CodePoint)) :=
  (stdout.splitOn nul).foldlM addEntry Dict.empty

inductive EolClass where
  | none | lf | crlf | mixed | binary | notFile
  deriving DecidableEq

def EolClass.token : EolClass → Text
  | none => "none".toList
  | lf => "lf".toList
  | crlf => "crlf".toList
  | mixed => "mixed".toList
  | binary => "-text".toList
  | notFile => []

structure IndexEntry where
  indexClass : EolClass
  worktreeClass : EolClass
  attributes : Bytes
  path : Bytes
  attributes_plain : tab ∉ attributes ∧ nul ∉ attributes
  path_plain : nul ∉ path

/-- `%-*s` -/
def padded (width : ℕ) (field : Bytes) : Bytes := field ++ List.replicate (width - field.length) space

def IndexEntry.metadata (e : IndexEntry) : Bytes :=
  encodeUtf8 "i/".toList ++ padded 5 (encodeUtf8 e.indexClass.token) ++ encodeUtf8 " w/".toList ++
    padded 5 (encodeUtf8 e.worktreeClass.token) ++ encodeUtf8 " attr/".toList ++ padded 17 e.attributes

def IndexEntry.record (e : IndexEntry) : Bytes := e.metadata ++ tab :: e.path

def listing (entries : List IndexEntry) : Bytes := entries.flatMap fun e => e.record ++ [nul]

theorem mem_padded {width : ℕ} {field : Bytes} {b : UInt8} (h : b ∈ padded width field) : b ∈ field ∨ b = space :=
  (List.mem_append.1 h).imp_right List.eq_of_mem_replicate

theorem metadata_plain (e : IndexEntry) {b : UInt8} (hb : b = tab ∨ b = nul) : b ∉ e.metadata := by
  have hspace : b ≠ space := by rcases hb with rfl | rfl <;> decide
  have hlabels : b ∉ encodeUtf8 "i/".toList ∧ b ∉ encodeUtf8 " w/".toList ∧ b ∉ encodeUtf8 " attr/".toList := by
    rcases hb with rfl | rfl <;> decide
  have htoken : ∀ c : EolClass, b ∉ padded 5 (encodeUtf8 c.token) := by
    intro c hm
    refine (mem_padded hm).elim ?_ hspace
    rcases hb with rfl | rfl <;> cases c <;> decide
  have hattributes : b ∉ padded 17 e.attributes := fun hm => (mem_padded hm).elim
    (by rcases hb with rfl | rfl; exacts [e.attributes_plain.1, e.attributes_plain.2]) hspace
  simp only [IndexEntry.metadata, List.mem_append, not_or]
  exact ⟨⟨⟨⟨⟨hlabels.1, htoken _⟩, hlabels.2.1⟩, htoken _⟩, hlabels.2.2⟩, hattributes⟩

theorem record_plain (e : IndexEntry) : nul ∉ e.record := by
  rw [IndexEntry.record, List.mem_append, List.mem_cons, not_or, not_or]
  exact ⟨metadata_plain e (.inr rfl), by decide, e.path_plain⟩

/-- Splitting at NUL gives the records back, and an empty one after the last. -/
theorem splitOn_listing (entries : List IndexEntry) :
    (listing entries).splitOn nul = entries.map IndexEntry.record ++ [[]] := by
  induction entries with
  | nil => rfl
  | cons e entries ih =>
    rw [listing, List.flatMap_cons, ← listing, List.append_assoc, List.singleton_append,
      List.splitOn_append_cons_self_of_not_mem (record_plain e), ih, List.map_cons, List.cons_append]

theorem splitTab_record (e : IndexEntry) : splitTab e.record = some (e.metadata, e.path) := by
  have hplain : ∀ b ∈ e.metadata, (b != tab) = true := by
    intro b hb
    rw [bne_iff_ne]
    rintro rfl
    exact metadata_plain e (.inl rfl) hb
  rw [splitTab, IndexEntry.record, List.dropWhile_append_of_pos hplain, List.takeWhile_append_of_pos hplain]
  simp

theorem metadata_eq (e : IndexEntry) :
    ∃ rest, e.metadata = encodeUtf8 ("i/".toList ++ e.indexClass.token) ++ space :: rest := by
  have hblank : ∀ (k : ℕ) (t : Bytes), ∃ rest, List.replicate k space ++ space :: t = space :: rest := by
    intro k t
    cases k with
    | zero => exact ⟨t, rfl⟩
    | succ k => exact ⟨List.replicate k space ++ space :: t, rfl⟩
  have hlabel : encodeUtf8 " w/".toList = space :: encodeUtf8 "w/".toList := rfl
  obtain ⟨rest, hrest⟩ := hblank (5 - (encodeUtf8 e.indexClass.token).length) (encodeUtf8 "w/".toList ++
    (padded 5 (encodeUtf8 e.worktreeClass.token) ++ (encodeUtf8 " attr/".toList ++ padded 17 e.attributes)))
  have hfront : encodeUtf8 ("i/".toList ++ e.indexClass.token) =
      encodeUtf8 "i/".toList ++ encodeUtf8 e.indexClass.token := List.flatMap_append
  refine ⟨rest, ?_⟩
  rw [← hrest, hfront, IndexEntry.metadata, padded, hlabel]
  simp only [List.append_assoc, List.cons_append]

theorem firstToken_of_text {t : Text} (hne : t ≠ []) (hspace : ∀ c ∈ t, PythonText.isSpace c = false)
    (rest : List CodePoint) : firstToken (ofText t ++ .scalar ' ' :: rest) = some (ofText t) := by
  obtain ⟨c, t, rfl⟩ := List.exists_cons_of_ne_nil hne
  have hplain : ∀ x ∈ ofText (c :: t), (!x.isSpace) = true := by
    intro x hx
    obtain ⟨d, hd, rfl⟩ := List.mem_map.1 hx
    rw [CodePoint.isSpace, hspace d hd]
    rfl
  have hhead : CodePoint.isSpace (.scalar c) = false := hspace c List.mem_cons_self
  have hdrop : (ofText (c :: t) ++ .scalar ' ' :: rest).dropWhile CodePoint.isSpace =
      .scalar c :: (ofText t ++ .scalar ' ' :: rest) := by
    rw [ofText, List.map_cons, List.cons_append, List.dropWhile_cons_of_neg (by rw [hhead]; exact Bool.false_ne_true),
      ofText]
  rw [firstToken, hdrop]
  dsimp only
  rw [← List.cons_append, show CodePoint.scalar c :: ofText t = ofText (c :: t) from rfl,
    List.takeWhile_append_of_pos hplain, List.takeWhile_cons_of_neg (by decide), List.append_nil]

theorem token_plain (eolClass : EolClass) :
    ∀ c ∈ "i/".toList ++ eolClass.token, PythonText.isSpace c = false := by
  have hall : (("i/".toList ++ eolClass.token).all fun c => !PythonText.isSpace c) = true := by
    cases eolClass <;> decide
  exact fun c hc => by simpa using List.all_eq_true.1 hall c hc

theorem afterSlash_token (eolClass : EolClass) :
    (ofText "i/".toList).isPrefixOf (ofText ("i/".toList ++ eolClass.token)) = true ∧
      afterSlash (ofText ("i/".toList ++ eolClass.token)) = ofText eolClass.token := by
  cases eolClass <;> exact ⟨by decide, by decide⟩

theorem addEntry_record (info : Dict (List CodePoint) (List CodePoint)) (e : IndexEntry) :
    addEntry info e.record =
      some (info.modify (decode e.path) (ofText e.indexClass.token) fun _ => ofText e.indexClass.token) := by
  have hne : e.record ≠ [] := List.append_ne_nil_of_right_ne_nil _ (List.cons_ne_nil _ _)
  obtain ⟨rest, hrest⟩ := metadata_eq e
  have hmetadata : decode e.metadata = ofText ("i/".toList ++ e.indexClass.token) ++ .scalar ' ' :: decode rest := by
    rw [hrest, decode_encodeUtf8_append, show space :: rest = String.utf8EncodeChar ' ' ++ rest from rfl, decode_append]
  have htoken := firstToken_of_text (List.append_ne_nil_of_left_ne_nil (by decide) e.indexClass.token)
    (token_plain e.indexClass) (decode rest)
  obtain ⟨hhead, hclass⟩ := afterSlash_token e.indexClass
  rw [addEntry, if_neg hne, splitTab_record, Option.bind_eq_bind, Option.bind_some]
  dsimp only
  rw [hmetadata, htoken, Option.bind_eq_bind, Option.bind_some, if_pos hhead, hclass]

theorem trackedEolInfo_listing (entries : List IndexEntry) :
    trackedEolInfo (listing entries) = some (entries.foldl (fun info e =>
      info.modify (decode e.path) (ofText e.indexClass.token) fun _ => ofText e.indexClass.token) Dict.empty) := by
  rw [trackedEolInfo, splitOn_listing, List.foldlM_append]
  generalize (Dict.empty : Dict (List CodePoint) (List CodePoint)) = info
  have hrecords : (entries.map IndexEntry.record).foldlM addEntry info = some (entries.foldl (fun info e =>
      info.modify (decode e.path) (ofText e.indexClass.token) fun _ => ofText e.indexClass.token) info) := by
    induction entries generalizing info with
    | nil => rfl
    | cons e entries ih =>
      rw [List.map_cons, List.foldlM_cons, addEntry_record, Option.bind_eq_bind, Option.bind_some, ih, List.foldl_cons]
  rw [hrecords, Option.bind_eq_bind, Option.bind_some]
  rfl

theorem trackedEolInfo_entries (entries : List IndexEntry) (hdistinct : (entries.map IndexEntry.path).Nodup) :
    ∃ info, trackedEolInfo (listing entries) = some info ∧
      info.entries = entries.map fun e => (decode e.path, ofText e.indexClass.token) := by
  have hkeys : (entries.map fun e => decode e.path).Nodup := by
    have hmapped := hdistinct.map decode_injective
    rwa [List.map_map] at hmapped
  exact ⟨_, trackedEolInfo_listing entries,
    entries_foldl_new (fun e : IndexEntry => decode e.path) (fun e => ofText e.indexClass.token) entries Dict.empty
      hkeys⟩

/-- The parser gives back exactly the paths and their own index classes, in the order of the
listing, and different paths stay different. -/
theorem tracked_eol_info_inverts (entries : List IndexEntry) (hdistinct : (entries.map IndexEntry.path).Nodup) :
    ∃ info, trackedEolInfo (listing entries) = some info ∧
      info.entries = entries.map (fun e => (decode e.path, ofText e.indexClass.token)) ∧
      (∀ path eolClass, info.get? (decode path) = some (ofText eolClass) ↔
        ∃ e ∈ entries, e.path = path ∧ e.indexClass.token = eolClass) ∧
      Function.Injective decode ∧ ∀ path, encode (decode path) = path := by
  obtain ⟨info, hinfo, hentries⟩ := trackedEolInfo_entries entries hdistinct
  refine ⟨info, hinfo, hentries, fun path eolClass => ?_, decode_injective, encode_decode⟩
  rw [← mem_entries, hentries, List.mem_map]
  constructor
  · rintro ⟨e, he, heq⟩
    obtain ⟨hpath, hclass⟩ := Prod.mk.inj heq
    exact ⟨e, he, decode_injective hpath, ofText_injective hclass⟩
  · rintro ⟨e, he, rfl, rfl⟩
    exact ⟨e, he, rfl⟩

/-- A link, and two paths that differ in a byte that is not UTF-8. -/
def oddEntries : List IndexEntry :=
  [⟨.mixed, .lf, encodeUtf8 "text=auto eol=crlf".toList, [97, 9, 255, 10], by decide, by decide⟩,
    ⟨.notFile, .notFile, [], [97, 9, 254, 10], by decide, by decide⟩]

theorem tracked_eol_info_inverts_odd :
    ∃ info, trackedEolInfo (listing oddEntries) = some info ∧
      info.entries = oddEntries.map (fun e => (decode e.path, ofText e.indexClass.token)) ∧
      (∀ path eolClass, info.get? (decode path) = some (ofText eolClass) ↔
        ∃ e ∈ oddEntries, e.path = path ∧ e.indexClass.token = eolClass) ∧
      Function.Injective decode ∧ ∀ path, encode (decode path) = path :=
  tracked_eol_info_inverts oddEntries (by decide)

end LoggerBenchmarks.IndexListing
